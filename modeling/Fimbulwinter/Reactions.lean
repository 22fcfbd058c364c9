import Fimbulwinter.DataNodes
import Fimbulwinter.TransitionRuns

/-! # `engine/gui/reaction.cpp`

Views display texts of the data, and list controllers create views for the items of its lists. Of
the views only those that display observed texts are kept. -/
namespace Fimbulwinter.Reactions

/-- A list controller: how many views its group has, and what the texts of its item template
observe and display at first, in the order in which they are created -/
structure Controller where
  size : ℕ
  template : List (Path × String)

structure State where
  root : Node
  controllers : ℕ → Controller
  displays : ViewId → String
  count : ViewId

/-- `update_observer_number` -/
def numbered (index : ℕ) : Path → Path
  | [] => []
  | part :: path =>
    if part = .key "*" then .index index :: path else part :: numbered index path

def Node.addText (view : ViewId) : Node → Node
  | .text reactions => .text (reactions ++ [view])
  | node => node

def Node.addList (controller : ℕ) : Node → Node
  | .list itemSetup reactions nodes => .list itemSetup (reactions ++ [controller]) nodes
  | node => node

/-- A new view displays a text, without a reaction so far. -/
def State.newText (s : State) (display : String) : State :=
  { s with displays := Function.update s.displays s.count display, count := s.count + 1 }

/-- A new view reacts to the text at a path; and whether the creation goes on, which an exception
ends. -/
def State.createText (s : State) (path : Path) (display : String) : Except Misuse (State × Bool) :=
  match s.root.findNode path with
  | .misuse e => .error e
  | .exception => .ok (s.newText display, false)
  | .node (.text _) =>
    .ok ({ s.newText display with root := s.root.modify (Node.addText s.count) path }, true)
  | .node _ => .error .alternative

/-- The texts of an item are created. -/
def State.createItem (s : State) (index : ℕ) : List (Path × String) → Except Misuse State
  | [] => .ok s
  | (observe, display) :: rest =>
    match s.createText (numbered index observe) display with
    | .error e => .error e
    | .ok (s, false) => .ok s
    | .ok (s, true) => s.createItem index rest

/-- The items from an index on are created. -/
def State.createItems (s : State) (controller : ℕ) (index : ℕ) : ℕ → Except Misuse State
  | 0 => .ok s
  | more + 1 =>
    match s.createItem index (s.controllers controller).template with
    | .error e => .error e
    | .ok s => s.createItems controller (index + 1) more

/-- Children are hidden from an index on, which takes each of them out of the group: what is left
of its size. -/
def hideChildren (size index : ℕ) : ℕ → Except Misuse ℕ
  | 0 => .ok size
  | more + 1 =>
    if index < size then hideChildren (size - 1) (index + 1) more else .error .range

def State.resize (s : State) (controller size : ℕ) : State :=
  { s with controllers :=
      Function.update s.controllers controller { s.controllers controller with size } }

/-- `react` of a list -/
def State.reactList (s : State) (controller goal : ℕ) : Except Misuse State :=
  let current := (s.controllers controller).size
  if current = goal then .ok s
  else if current < goal then
    match s.createItems controller current (goal - current) with
    | .error e => .error e
    | .ok s => .ok (s.resize controller goal)
  else
    match hideChildren current goal (current - goal) with
    | .error e => .error e
    | .ok size => .ok (s.resize controller size)

def State.reactLists (s : State) (goal : ℕ) : List ℕ → Except Misuse State
  | [] => .ok s
  | controller :: rest =>
    match s.reactList controller goal with
    | .error e => .error e
    | .ok s => s.reactLists goal rest

def State.setNode (s : State) (path : Path) (node : Node) : State :=
  { s with root := s.root.modify (fun _ => node) path }

mutual

/-- `update`, of the node at a path -/
def State.update (s : State) (path : Path) : Value → Except Misuse State
  | .values data =>
    match s.root.get? path with
    | some (.list itemSetup reactions nodes) =>
      match expand itemSetup nodes (data.length - nodes.length) with
      | .error e => .error e
      | .ok (itemSetup, nodes) =>
        match (s.setNode path (.list itemSetup reactions nodes)).reactLists data.length
          reactions with
        | .error e => .error e
        | .ok s => s.updateItems path 0 data
    | _ => .error .alternative
  | .keyValues data =>
    match s.root.get? path with
    | some (.map _) => s.updatePairs path data
    | _ => .error .alternative
  | .null => .ok s
  | .text text =>
    match s.root.get? path with
    | some (.text reactions) =>
      .ok { s with displays := fun view => if view ∈ reactions then text else s.displays view }
    | _ => .error .alternative

def State.updateItems (s : State) (path : Path) (index : ℕ) : List Value → Except Misuse State
  | [] => .ok s
  | value :: rest =>
    match s.update (path ++ [.index index]) value with
    | .error e => .error e
    | .ok s => s.updateItems path (index + 1) rest

def State.updatePairs (s : State) (path : Path) : List (Asset × Value) → Except Misuse State
  | [] => .ok s
  | (key, value) :: rest =>
    match s.root.get? (path ++ [.key key]) with
    | none => .error .missing
    | some _ =>
      match s.update (path ++ [.key key]) value with
      | .error e => .error e
      | .ok s => s.updatePairs path rest

end

/-- The messages, and what is created when the windows are loaded: a view that displays an observed
text, and a controller of a list -/
inductive Message
  | setup (key : Asset) (value : Value)
  | data (key : Asset) (value : Value)
  | text (observe : Path) (display : String)
  | list (observe : Path) (controller : ℕ) (size : ℕ) (template : List (Path × String))

def State.step (s : State) : Message → Except Misuse State
  | .setup key value =>
    match s.root with
    | .map nodes =>
      match lookup key nodes with
      | some _ => .error .known
      | none =>
        match value.setup with
        | .error e => .error e
        | .ok (node, _) => .ok { s with root := .map (nodes ++ [(key, node)]) }
    | _ => .error .alternative
  | .data key value => s.updatePairs [] [(key, value)]
  | .text observe display => (s.createText observe display).map Prod.fst
  | .list observe controller size template =>
    match s.root.findNode observe with
    | .misuse e => .error e
    | .exception => .ok s
    | .node (.list ..) =>
      .ok { s with
        root := s.root.modify (Node.addList controller) observe
        controllers := Function.update s.controllers controller ⟨size, template⟩ }
    | .node _ => .error .alternative

/-! ## States -/

/-- A view displays the text at a path. -/
def State.Observes (s : State) (view : ViewId) (path : Path) : Prop :=
  ∃ reactions, s.root.head? path = some (.text reactions) ∧ view ∈ reactions

/-- A controller creates views for the items of the list at a path. -/
def State.Controls (s : State) (controller : ℕ) (path : Path) : Prop :=
  ∃ itemSetup reactions, s.root.head? path = some (.list itemSetup reactions) ∧
    controller ∈ reactions

/-- What a text of an item observes leads through the item: the first asterisk stands for its
index, and behind it there are only keys that lead to a text. -/
def State.OwnItem (s : State) (path observe : Path) : Prop :=
  .key "*" ∉ path ∧ ∃ rest, observe = path ++ .key "*" :: rest ∧
    (∀ part ∈ rest, ∃ key, part = .key key) ∧
    ∀ i, s.root.kind? (path ++ .index i :: rest) = some .text

structure State.Good (s : State) : Prop where
  root : s.root.kind? [] = some .map
  setups : ∀ path itemSetup reactions, s.root.head? path = some (.list itemSetup reactions) →
    Repeatable itemSetup ∧ reactions.Nodup
  views : ∀ view path, s.Observes view path → view < s.count
  once : ∀ view path path', s.Observes view path → s.Observes view path' → path = path'
  single : ∀ controller path path', s.Controls controller path → s.Controls controller path' →
    path = path'
  items : ∀ controller path, s.Controls controller path →
    ∀ part ∈ (s.controllers controller).template, s.OwnItem path part.1

/-- What an update changes: views observe paths that are new to them only in one region, and only
controllers of lists in another one get a new size. -/
structure Changes (fresh resized : Path → Prop) (s s' : State) : Prop where
  kind : ∀ path, s'.root.kind? path = s.root.kind? path
  stays : ∀ path, (s.root.get? path).isSome → (s'.root.get? path).isSome
  controls : ∀ controller path, s'.Controls controller path ↔ s.Controls controller path
  templates : ∀ controller,
    (s'.controllers controller).template = (s.controllers controller).template
  sizes : ∀ controller, (s'.controllers controller).size = (s.controllers controller).size ∨
    ∃ path, resized path ∧ s.Controls controller path
  observes : ∀ view path, s.Observes view path → s'.Observes view path
  new : ∀ view path, s'.Observes view path → s.Observes view path ∨ (fresh path ∧ s.count ≤ view)
  count : s.count ≤ s'.count

section

variable {fresh resized fresh' resized' : Path → Prop} {s s' s'' : State}

theorem Changes.refl (s : State) : Changes fresh resized s s :=
  ⟨fun _ => rfl, fun _ h => h, fun _ _ => .rfl, fun _ => rfl, fun _ => .inl rfl, fun _ _ h => h,
    fun _ _ h => .inl h, Nat.le_refl _⟩

theorem Changes.trans (h : Changes fresh resized s s') (h' : Changes fresh resized s' s'') :
    Changes fresh resized s s'' where
  kind path := (h'.kind path).trans (h.kind path)
  stays path hget := h'.stays path (h.stays path hget)
  controls controller path := (h'.controls controller path).trans (h.controls controller path)
  templates controller := (h'.templates controller).trans (h.templates controller)
  sizes controller := by
    rcases h'.sizes controller with hsame | ⟨path, hresized, hcontrols⟩
    · rw [hsame]
      exact h.sizes controller
    · exact .inr ⟨path, hresized, (h.controls controller path).mp hcontrols⟩
  observes view path hobserves := h'.observes view path (h.observes view path hobserves)
  new view path hobserves := by
    rcases h'.new view path hobserves with hold | ⟨hfresh, hle⟩
    · exact h.new view path hold
    · exact .inr ⟨hfresh, Nat.le_trans h.count hle⟩
  count := Nat.le_trans h.count h'.count

theorem Changes.mono (h : Changes fresh resized s s') (hfresh : ∀ path, fresh path → fresh' path)
    (hresized : ∀ path, resized path → resized' path) : Changes fresh' resized' s s' :=
  { h with
    sizes := fun controller => (h.sizes controller).imp_right fun ⟨path, hpath, hcontrols⟩ =>
      ⟨path, hresized path hpath, hcontrols⟩
    new := fun view path hobserves => (h.new view path hobserves).imp_right fun ⟨hpath, hle⟩ =>
      ⟨hfresh path hpath, hle⟩ }

/-- The parts of the invariant that only depend on the kinds and the controllers -/
theorem State.Good.changes (good : s.Good) (h : Changes fresh resized s s')
    (setups : ∀ path itemSetup reactions, s'.root.head? path = some (.list itemSetup reactions) →
      Repeatable itemSetup ∧ reactions.Nodup)
    (views : ∀ view path, s'.Observes view path → view < s'.count)
    (once : ∀ view path path', s'.Observes view path → s'.Observes view path' → path = path') :
    s'.Good where
  root := (h.kind []).trans good.root
  setups := setups
  views := views
  once := once
  single controller path path' hpath hpath' := good.single controller path path'
    ((h.controls controller path).mp hpath) ((h.controls controller path').mp hpath')
  items controller path hcontrols part hpart := by
    rw [h.templates] at hpart
    obtain ⟨hstar, rest, hobserve, hkeys, hkind⟩ :=
      good.items controller path ((h.controls controller path).mp hcontrols) part hpart
    exact ⟨hstar, rest, hobserve, hkeys, fun i => (h.kind _).trans (hkind i)⟩

end

/-! ## New views -/

theorem isSome_get?_iff {node : Node} {path : Path} :
    (node.get? path).isSome ↔ (node.head? path).isSome := by
  rw [Node.head?, Option.isSome_map]

/-- Changes that keep the invariant, and the texts of the views so far -/
structure Creates (fresh resized : Path → Prop) (s s' : State) : Prop where
  changes : Changes fresh resized s s'
  good : s'.Good
  kept : ∀ view < s.count, s'.displays view = s.displays view

section

variable {fresh resized fresh' resized' : Path → Prop} {s s' s'' : State} {path : Path}

theorem Creates.refl (good : s.Good) : Creates fresh resized s s := ⟨.refl s, good, fun _ _ => rfl⟩

theorem Creates.trans (h : Creates fresh resized s s') (h' : Creates fresh resized s' s'') :
    Creates fresh resized s s'' :=
  ⟨h.changes.trans h'.changes, h'.good, fun view hlt =>
    (h'.kept view (Nat.lt_of_lt_of_le hlt h.changes.count)).trans (h.kept view hlt)⟩

theorem Creates.mono (h : Creates fresh resized s s') (hfresh : ∀ path, fresh path → fresh' path)
    (hresized : ∀ path, resized path → resized' path) : Creates fresh' resized' s s' :=
  ⟨h.changes.mono hfresh hresized, h.good, h.kept⟩

/-- A view is created for a text that is there. -/
theorem createText_spec (good : s.Good) {reactions : List ViewId}
    (hget : s.root.get? path = some (.text reactions)) (display : String) :
    ∃ s', s.createText path display = .ok (s', true) ∧ s'.controllers = s.controllers ∧
      Creates (· = path) (fun _ => False) s s' := by
  have hhead : ∀ other, (s.root.modify (Node.addText s.count) path).head? other =
      if other = path then some (.text (reactions ++ [s.count])) else s.root.head? other :=
    Node.head?_modify_self hget fun part rest => by cases part <;> rfl
  have hcreate : s.createText path display = .ok ({ s.newText display with
      root := s.root.modify (Node.addText s.count) path }, true) := by
    simp only [State.createText, findNode_of_get? hget]
  refine ⟨_, hcreate, rfl, ?_⟩
  generalize hs' : { s.newText display with
    root := s.root.modify (Node.addText s.count) path } = s'
  have hroot : s'.root = s.root.modify (Node.addText s.count) path := by rw [← hs']
  have hcount : s'.count = s.count + 1 := by
    rw [← hs']
    rfl
  have hcontrollers : s'.controllers = s.controllers := by
    rw [← hs']
    rfl
  have hpath : s.root.head? path = some (.text reactions) := by
    rw [Node.head?, hget]
    rfl
  have hobserves (view : ViewId) (other : Path) :
      s'.Observes view other ↔ s.Observes view other ∨ (other = path ∧ view = s.count) := by
    rw [State.Observes, hroot, hhead]
    by_cases heq : other = path
    · subst heq
      rw [if_pos rfl, State.Observes, hpath]
      simp
    · rw [if_neg heq, State.Observes]
      simp [heq]
  have hlist (other : Path) (itemSetup : Value) (controllers : List ℕ) :
      s'.root.head? other = some (.list itemSetup controllers) ↔
        s.root.head? other = some (.list itemSetup controllers) := by
    rw [hroot, hhead]
    by_cases heq : other = path
    · subst heq
      simp [hpath]
    · rw [if_neg heq]
  have changes : Changes (· = path) (fun _ => False) s s' := by
    refine ⟨fun other => ?_, fun other hsome => ?_, fun controller other => ?_, fun _ => ?_,
      fun _ => ?_, fun view other h => (hobserves view other).mpr (.inl h), fun view other h => ?_,
      hcount ▸ Nat.le_succ _⟩
    · rw [hroot]
      refine s.root.kind?_modify (fun old hold rest => ?_) other
      rw [hget, Option.some.injEq] at hold
      subst hold
      rcases rest with _ | ⟨key | i, rest⟩ <;> rfl
    · rw [isSome_get?_iff, hroot, hhead]
      split
      · rfl
      · exact isSome_get?_iff.mp hsome
    · simp only [State.Controls, hlist]
    · rw [hcontrollers]
    · exact .inl (by rw [hcontrollers])
    · rcases (hobserves view other).mp h with hold | ⟨hother, hview⟩
      · exact .inl hold
      · exact .inr ⟨hother, hview ▸ Nat.le_refl _⟩
  have hviews (view : ViewId) (other : Path) (h : s'.Observes view other) : view < s'.count := by
    rw [hcount]
    rcases (hobserves view other).mp h with hold | ⟨-, rfl⟩
    · exact Nat.lt_succ_of_lt (good.views view other hold)
    · exact Nat.lt_succ_self _
  refine ⟨changes, good.changes changes (fun other itemSetup controllers h =>
    good.setups other itemSetup controllers ((hlist other itemSetup controllers).mp h)) hviews
    fun view other other' h h' => ?_, fun view hlt => ?_⟩
  · rcases (hobserves view other).mp h with hold | ⟨hother, hview⟩ <;>
      rcases (hobserves view other').mp h' with hold' | ⟨hother', hview'⟩
    · exact good.once view other other' hold hold'
    · exact (Nat.lt_irrefl _ (hview' ▸ good.views view other hold)).elim
    · exact (Nat.lt_irrefl _ (hview ▸ good.views view other' hold')).elim
    · rw [hother, hother']
  · rw [← hs']
    exact Function.update_of_ne (Nat.ne_of_lt hlt) ..

theorem numbered_eq {rest : Path} (h : .key "*" ∉ path) (index : ℕ) :
    numbered index (path ++ .key "*" :: rest) = path ++ .index index :: rest := by
  induction path with
  | nil => rw [List.nil_append, numbered, if_pos rfl, List.nil_append]
  | cons part path ih =>
    rw [List.mem_cons, not_or] at h
    rw [List.cons_append, numbered, if_neg (Ne.symm h.1), ih h.2, List.cons_append]

/-- The texts of an item that is there are created. -/
theorem createItem_spec (good : s.Good) {index : ℕ}
    (hitem : (s.root.get? (path ++ [.index index])).isSome) {template : List (Path × String)}
    (own : ∀ part ∈ template, s.OwnItem path part.1) :
    ∃ s', s.createItem index template = .ok s' ∧ s'.controllers = s.controllers ∧
      Creates (path ++ [.index index] <+: ·) (fun _ => False) s s' := by
  induction template generalizing s with
  | nil => exact ⟨s, rfl, rfl, .refl good⟩
  | cons part template ih =>
    obtain ⟨observe, display⟩ := part
    obtain ⟨hstar, rest, heq, hkeys, hkind⟩ := own (observe, display) List.mem_cons_self
    simp only at heq
    subst heq
    obtain ⟨item, hget⟩ := Option.isSome_iff_exists.mp hitem
    have hpath : path ++ .index index :: rest = (path ++ [.index index]) ++ rest := by
      rw [List.append_assoc, List.singleton_append]
    have hchild := hkind index
    rw [hpath, Node.kind?_of_get? hget] at hchild
    obtain ⟨child, hrest, htext⟩ := Node.get?_of_kind? hkeys hchild
    obtain ⟨reactions, rfl⟩ := eq_text_of_kind? htext
    have hfound : s.root.get? (path ++ .index index :: rest) = some (.text reactions) := by
      rw [hpath, Node.get?_append, hget, Option.bind_some, hrest]
    obtain ⟨s₁, hfirst, hcontrollers, hcreates⟩ := createText_spec good hfound display
    have hmono : Creates (path ++ [.index index] <+: ·) (fun _ => False) s s₁ :=
      hcreates.mono (fun other hother => ⟨rest, by rw [hother, hpath]⟩) fun _ h => h
    obtain ⟨s', hsecond, hcontrollers', hcreates'⟩ := ih hcreates.good
      (hcreates.changes.stays _ hitem) fun part hpart => by
        obtain ⟨hstar, rest, heq, hkeys, hkind⟩ := own part (List.mem_cons_of_mem _ hpart)
        exact ⟨hstar, rest, heq, hkeys, fun i => (hcreates.changes.kind _).trans (hkind i)⟩
    refine ⟨s', ?_, hcontrollers'.trans hcontrollers, hmono.trans hcreates'⟩
    simp only [State.createItem, numbered_eq hstar, hfirst, hsecond]

/-- Somewhere in the items of the list at a path -/
def InItems (path other : Path) : Prop := ∃ i, path ++ [.index i] <+: other

theorem createItems_spec (good : s.Good) {controller : ℕ} (hcontrols : s.Controls controller path)
    (index more : ℕ)
    (hitems : ∀ i, i < index + more → (s.root.get? (path ++ [.index i])).isSome) :
    ∃ s', s.createItems controller index more = .ok s' ∧ s'.controllers = s.controllers ∧
      Creates (InItems path) (fun _ => False) s s' := by
  induction more generalizing s index with
  | zero => exact ⟨s, rfl, rfl, .refl good⟩
  | succ more ih =>
    obtain ⟨s₁, hfirst, hcontrollers, hcreates⟩ := createItem_spec good
      (hitems index (by omega)) (good.items controller path hcontrols)
    obtain ⟨s', hsecond, hcontrollers', hcreates'⟩ := ih hcreates.good
      ((hcreates.changes.controls controller path).mpr hcontrols) (index + 1)
      fun i hi => hcreates.changes.stays _ (hitems i (by omega))
    refine ⟨s', ?_, hcontrollers'.trans hcontrollers,
      (hcreates.mono (fun other hother => ⟨index, hother⟩) fun _ h => h).trans hcreates'⟩
    simp only [State.createItems, hfirst, hsecond]

theorem resize_creates (good : s.Good) {controller : ℕ} (hcontrols : s.Controls controller path)
    (size : ℕ) : Creates fresh (· = path) s (s.resize controller size) := by
  have changes : Changes fresh (· = path) s (s.resize controller size) := by
    refine ⟨fun _ => rfl, fun _ h => h, fun _ _ => .rfl, fun other => ?_, fun other => ?_,
      fun _ _ h => h, fun _ _ h => .inl h, Nat.le_refl _⟩ <;>
      rw [State.resize] <;> by_cases heq : other = controller
    · subst heq
      simp only [Function.update_self]
    · simp only [Function.update_of_ne heq]
    · subst heq
      exact .inr ⟨path, rfl, hcontrols⟩
    · exact .inl (by simp only [Function.update_of_ne heq])
  exact ⟨changes, good.changes changes good.setups good.views good.once, fun _ _ => rfl⟩

/-- A list controller finds the nodes of its items, as long as it hides at most one of them. -/
theorem reactList_spec (good : s.Good) {controller : ℕ} (hcontrols : s.Controls controller path)
    {goal : ℕ} (hsize : (s.controllers controller).size ≤ goal + 1)
    (hitems : ∀ i < goal, (s.root.get? (path ++ [.index i])).isSome) :
    ∃ s', s.reactList controller goal = .ok s' ∧
      (∀ other ≠ controller, s'.controllers other = s.controllers other) ∧
      Creates (InItems path) (· = path) s s' := by
  have hresize (s₁ : State) (size other : ℕ) (hne : other ≠ controller) :
      (s₁.resize controller size).controllers other = s₁.controllers other :=
    Function.update_of_ne hne ..
  rcases Nat.lt_trichotomy (s.controllers controller).size goal with hlt | heq | hgt
  · obtain ⟨s₁, hcreate, hcontrollers, hcreates⟩ := createItems_spec good hcontrols
      (s.controllers controller).size (goal - (s.controllers controller).size)
      fun i hi => hitems i (by omega)
    refine ⟨s₁.resize controller goal, ?_, fun other hne => ?_,
      (hcreates.mono (fun _ h => h) fun _ h => h.elim).trans
        (resize_creates hcreates.good
          ((hcreates.changes.controls controller path).mpr hcontrols) _)⟩
    · simp only [State.reactList, if_neg (Nat.ne_of_lt hlt), if_pos hlt, hcreate]
    · rw [hresize _ _ _ hne, hcontrollers]
  · exact ⟨s, by simp only [State.reactList, heq, if_true], fun _ _ => rfl, .refl good⟩
  · -- the only child to hide is the last one
    have hone : (s.controllers controller).size - goal = 1 := by omega
    refine ⟨s.resize controller ((s.controllers controller).size - 1), ?_,
      fun other hne => hresize _ _ _ hne, resize_creates good hcontrols _⟩
    simp only [State.reactList, if_neg (Nat.ne_of_gt hgt), if_neg (Nat.lt_asymm hgt), hone,
      hideChildren, if_pos hgt]

theorem reactLists_spec (good : s.Good) {reactions : List ℕ} (nodup : reactions.Nodup)
    (hcontrols : ∀ controller ∈ reactions, s.Controls controller path) (goal : ℕ)
    (hsize : ∀ controller ∈ reactions, (s.controllers controller).size ≤ goal + 1)
    (hitems : ∀ i < goal, (s.root.get? (path ++ [.index i])).isSome) :
    ∃ s', s.reactLists goal reactions = .ok s' ∧ Creates (InItems path) (· = path) s s' := by
  induction reactions generalizing s with
  | nil => exact ⟨s, rfl, .refl good⟩
  | cons controller reactions ih =>
    obtain ⟨hnot, hnodup⟩ := List.nodup_cons.mp nodup
    obtain ⟨s₁, hfirst, hothers, hcreates⟩ := reactList_spec good
      (hcontrols controller List.mem_cons_self) (hsize controller List.mem_cons_self) hitems
    obtain ⟨s', hsecond, hcreates'⟩ := ih hcreates.good hnodup
      (fun other hmem => (hcreates.changes.controls other path).mpr
        (hcontrols other (List.mem_cons_of_mem _ hmem)))
      (fun other hmem => by
        rw [hothers other fun heq => hnot (heq ▸ hmem)]
        exact hsize other (List.mem_cons_of_mem _ hmem))
      fun i hi => hcreates.changes.stays _ (hitems i hi)
    exact ⟨s', by simp only [State.reactLists, hfirst, hsecond], hcreates.trans hcreates'⟩

/-- A list grows: its items get nodes. -/
theorem setNode_spec (good : s.Good) {itemSetup itemSetup' : Value} {reactions : List ℕ}
    {nodes new : List Node} (hget : s.root.get? path = some (.list itemSetup reactions nodes))
    (repeatable : Repeatable itemSetup')
    (hleft : ∀ rest, itemSetup'.kind? rest = itemSetup.kind? rest)
    (hnew : ∀ node ∈ new, node.Blank ∧ ∀ rest, node.kind? rest = itemSetup.kind? rest) :
    Creates fresh resized s (s.setNode path (.list itemSetup' reactions (nodes ++ new))) := by
  have hbelow (rest : Path) : ((s.root.modify (fun _ => .list itemSetup' reactions (nodes ++ new))
      path).get? (path ++ rest)) = (Node.list itemSetup' reactions (nodes ++ new)).get? rest := by
    rw [Node.get?_modify_append, hget, Option.bind_some]
  have hold (rest : Path) : s.root.get? (path ++ rest) =
      (Node.list itemSetup reactions nodes).get? rest := by
    rw [Node.get?_append, hget, Option.bind_some]
  -- what is at a path is what was there, a blank node, or the list itself
  have hhead (other : Path) :
      (s.root.modify (fun _ => .list itemSetup' reactions (nodes ++ new)) path).head? other =
        s.root.head? other ∨
      (other = path ∧ (s.root.modify (fun _ => .list itemSetup' reactions (nodes ++ new))
        path).head? other = some (.list itemSetup' reactions)) ∨
      (s.root.head? other = none ∧ ∀ head, (s.root.modify (fun _ => .list itemSetup' reactions
        (nodes ++ new)) path).head? other = some head → head.Blank) := by
    by_cases hpre : path <+: other
    · obtain ⟨rest, rfl⟩ := hpre
      rw [Node.head?, Node.head?, hbelow, hold]
      rcases rest with _ | ⟨key | i, rest⟩
      · exact .inr (.inl ⟨List.append_nil _, rfl⟩)
      · exact .inl rfl
      · simp only [Node.get?]
        by_cases hi : i < nodes.length
        · rw [List.getElem?_append_left hi]
          exact .inl rfl
        · rw [List.getElem?_append_right (Nat.not_lt.mp hi),
            List.getElem?_eq_none (Nat.not_lt.mp hi)]
          refine .inr (.inr ⟨rfl, fun head hsome => ?_⟩)
          cases hnode : new[i - nodes.length]? with
          | none => simp [hnode] at hsome
          | some node =>
            rw [hnode, Option.bind_some] at hsome
            exact (hnew node (List.mem_of_getElem? hnode)).1 rest head hsome
    · exact .inl (Node.head?_modify _ _ hpre)
  have hpath : s.root.head? path = some (.list itemSetup reactions) := by
    rw [Node.head?, hget]
    rfl
  have hnodup := (good.setups path itemSetup reactions hpath).2
  have hobserves (view : ViewId) (other : Path) :
      (s.setNode path (.list itemSetup' reactions (nodes ++ new))).Observes view other ↔
        s.Observes view other := by
    unfold State.Observes State.setNode
    rcases hhead other with heq | ⟨rfl, heq⟩ | ⟨heq, hblank⟩
    · simp only [heq]
    · simp [heq, hpath]
    · simp only [heq, reduceCtorEq, false_and, exists_false, iff_false, not_exists, not_and]
      intro reactions hsome hmem
      rw [hblank _ hsome] at hmem
      cases hmem
  have hcontrols (controller : ℕ) (other : Path) :
      (s.setNode path (.list itemSetup' reactions (nodes ++ new))).Controls controller other ↔
        s.Controls controller other := by
    unfold State.Controls State.setNode
    rcases hhead other with heq | ⟨rfl, heq⟩ | ⟨heq, hblank⟩
    · simp only [heq]
    · simp [heq, hpath]
    · simp only [heq, reduceCtorEq, false_and, exists_false, iff_false, not_exists, not_and]
      intro itemSetup reactions hsome hmem
      rw [(hblank _ hsome).1] at hmem
      cases hmem
  have changes : Changes fresh resized s
      (s.setNode path (.list itemSetup' reactions (nodes ++ new))) := by
    refine ⟨fun other => ?_, fun other hsome => ?_, hcontrols, fun _ => rfl, fun _ => .inl rfl,
      fun view other h => (hobserves view other).mpr h,
      fun view other h => .inl ((hobserves view other).mp h), Nat.le_refl _⟩
    · refine s.root.kind?_modify (fun old hsome rest => ?_) other
      rw [hget, Option.some.injEq] at hsome
      subst hsome
      exact kind?_grown hleft (fun node hmem => (hnew node hmem).2) rest
    · rw [isSome_get?_iff] at hsome ⊢
      rcases hhead other with heq | ⟨-, heq⟩ | ⟨heq, -⟩
      · exact heq ▸ hsome
      · exact heq ▸ rfl
      · rw [heq] at hsome
        cases hsome
  refine ⟨changes, good.changes changes (fun other itemSetup'' reactions' hsome => ?_)
    (fun view other h => good.views view other ((hobserves view other).mp h))
    (fun view other other' h h' => good.once view other other' ((hobserves view other).mp h)
      ((hobserves view other').mp h')), fun _ _ => rfl⟩
  rw [State.setNode] at hsome
  rcases hhead other with heq | ⟨-, heq⟩ | ⟨-, hblank⟩
  · exact good.setups other itemSetup'' reactions' (heq ▸ hsome)
  · rw [heq, Option.some.injEq, Head.list.injEq] at hsome
    exact ⟨hsome.1 ▸ repeatable, hsome.2 ▸ hnodup⟩
  · have := hblank _ hsome
    exact ⟨this.2, this.1 ▸ List.nodup_nil⟩

end

end Fimbulwinter.Reactions
