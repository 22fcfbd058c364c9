import Fimbulwinter.ViewFrames

/-! # Hidden views and tabs

Which children groups have after a message, and what follows: a view that is hidden is not
drawn until it is shown, and a tab controller of `controller.cpp` shows the page of its active
tab and no other. -/
namespace Fimbulwinter.Gui

def View.layout (view : View) : Option Layout :=
  match view.content with
  | .group layout _ => some layout
  | _ => none

theorem View.regroup_layout (view : View) (f : List ViewId → List ViewId) :
    (view.regroup f).layout = view.layout := by
  unfold View.regroup
  split
  · rename_i hcontent
    simp [View.layout, hcontent]
  · rfl

theorem View.Like.layout {a b : View} (h : a.Like b) : b.layout = a.layout := by
  unfold View.layout
  rw [h.content]

namespace Screen

variable {s s' t : Screen} {id root : ViewId}

/-! ## Children -/

/-- What happens to the tree: some groups get other children, and some views become children. -/
structure Kin (s s' : Screen) (changed added : ViewId → Prop) : Prop where
  count : s.count ≤ s'.count
  parents : ∀ other, other < s.count → s'.parents other = s.parents other
  layout : ∀ other, other < s.count → (s'.views other).layout = (s.views other).layout
  children : ∀ other, other < s.count → ¬ changed other →
    (s'.views other).children = (s.views other).children
  fresh : ∀ other, ∀ child ∈ (s'.views other).children,
    child ∈ (s.views other).children ∨ s.count ≤ child ∨ added child

variable {changed added : ViewId → Prop}

theorem Kin.trans {changed' added' : ViewId → Prop} (h : s.Kin s' changed added)
    (h' : s'.Kin t changed' added')
    (hchanged : ∀ other, other < s.count → changed' other → changed other)
    (hadded : ∀ child, added' child → added child) : s.Kin t changed added where
  count := Nat.le_trans h.count h'.count
  parents other hlt :=
    (h'.parents other (Nat.lt_of_lt_of_le hlt h.count)).trans (h.parents other hlt)
  layout other hlt :=
    (h'.layout other (Nat.lt_of_lt_of_le hlt h.count)).trans (h.layout other hlt)
  children other hlt hnot :=
    (h'.children other (Nat.lt_of_lt_of_le hlt h.count)
      fun hother => hnot (hchanged other hlt hother)).trans (h.children other hlt hnot)
  fresh other child hchild := by
    rcases h'.fresh other child hchild with hchild | hle | hadd
    · exact h.fresh other child hchild
    · exact .inr (.inl (Nat.le_trans h.count hle))
    · exact .inr (.inr (hadded child hadd))

theorem Like.kin (h : s.Like s') (changed added : ViewId → Prop) : s.Kin s' changed added where
  count := Nat.le_of_eq h.count.symm
  parents other _ := congrFun h.parents other
  layout other _ := (h.views other).layout
  children other _ _ := (h.views other).children
  fresh other child hchild := .inl (by rwa [← (h.views other).children])

theorem Kin.refl (s : Screen) (changed added : ViewId → Prop) : s.Kin s changed added :=
  (Like.refl s).kin changed added

theorem Kin.weaken {changed' added' : ViewId → Prop} (h : s.Kin s' changed added)
    (hchanged : ∀ other, changed other → changed' other)
    (hadded : ∀ child, added child → added' child) : s.Kin s' changed' added' :=
  (Kin.refl s changed' added').trans h (fun other _ => hchanged other) hadded

/-- A group gets other children. -/
theorem regroup_kin (added : ViewId → Prop) (s : Screen) (group : ViewId) (f : List ViewId → List ViewId)
    (hf : ∀ children, ∀ child ∈ f children, child ∈ children ∨ added child) :
    s.Kin (s.modify group (·.regroup f)) (· = group) added where
  count := Nat.le_refl _
  parents other _ := congrFun (regroup_parents s group f) other
  layout other _ := modify_forall
    (p := fun other view => view.layout = (s.views other).layout) (fun _ _ => rfl)
    (View.regroup_layout _ f) other
  children other _ hne := by rw [modify_other _ _ hne]
  fresh := by
    refine modify_forall (p := fun other view => ∀ child ∈ view.children,
      child ∈ (s.views other).children ∨ s.count ≤ child ∨ added child)
      (fun _ _ _ hchild => .inl hchild) ?_
    intro child hchild
    cases hcontent : (s.views group).content with
    | group layout children =>
      rw [View.regroup_children f hcontent] at hchild
      rcases hf children child hchild with hold | hadd
      · exact .inl (by simpa [View.children, hcontent] using hold)
      · exact .inr (.inr hadd)
    | color _ | text _ _ | texture _ =>
      simp [View.regroup, View.children, hcontent] at hchild

theorem Consistent.hide_kin (h : s.Consistent) (hlt : id < s.count) :
    s.Kin (s.hide id) (fun other => s.parents id = some other) fun _ => False := by
  have hvisited := h.hideContent hlt
  have like : s.Like (s.hideContent id) :=
    Like.trans (.modify ⟨rfl, rfl, rfl, rfl, rfl, rfl, rfl⟩) hvisited.like
  have hbut := (hvisited.consistentBut (h.shouldRender false)).1
  rw [← hvisited.like.parents] at hbut
  unfold Screen.hide
  generalize s.hideContent id = s' at like hbut
  dsimp only
  have hid : (s'.views id).parent = s.parents id := congrFun like.parents id
  cases hparent : (s'.views id).parent with
  | none => exact like.kin _ _
  | some group =>
    have hlt' : id < (s'.abandon group id).count := by
      rw [Screen.abandon, modify_count, like.count]
      exact hlt
    have told := (parent_told _ (hbut.abandon hparent).tree hlt' visibilityChange).1
    have habandon := regroup_kin (fun _ => False) s' group (·.erase id)
      fun children child hchild => .inl (List.mem_of_mem_erase hchild)
    refine ((like.kin _ _).trans habandon ?_ fun _ h => h).trans
      (told.like.kin (fun _ => False) _) (fun _ _ h => h.elim) fun _ h => h
    rintro other - rfl
    rw [← hid, hparent]

theorem regroup_children_same {group : ViewId} (f : List ViewId → List ViewId)
    (hnil : (s.views group).layout = none → f [] = []) :
    ((s.modify group (·.regroup f)).views group).children = f (s.views group).children := by
  rw [modify_same]
  cases hcontent : (s.views group).content with
  | group layout children =>
    rw [View.regroup_children f hcontent]
    simp [View.children, hcontent]
  | color _ | text _ _ | texture _ =>
    have hnone : (s.views group).layout = none := by simp [View.layout, hcontent]
    simp [View.regroup, View.children, hcontent, hnil hnone]

theorem Consistent.hide_children (h : s.Consistent) (hlt : id < s.count) {group : ViewId}
    (hparent : s.parents id = some group) :
    ((s.hide id).views group).children = (s.views group).children.erase id := by
  have hvisited := h.hideContent hlt
  have like : s.Like (s.hideContent id) :=
    Like.trans (.modify ⟨rfl, rfl, rfl, rfl, rfl, rfl, rfl⟩) hvisited.like
  have hbut := (hvisited.consistentBut (h.shouldRender false)).1
  rw [← hvisited.like.parents] at hbut
  unfold Screen.hide
  generalize s.hideContent id = s' at like hbut
  have hid : (s'.views id).parent = some group := (congrFun like.parents id).trans hparent
  simp only [hid]
  have hlt' : id < (s'.abandon group id).count := by
    rw [Screen.abandon, modify_count, like.count]
    exact hlt
  have told := (parent_told _ (hbut.abandon hid).tree hlt' visibilityChange).1
  refine ((told.like.views group).children).trans ?_
  rw [Screen.abandon, regroup_children_same _ fun _ => rfl, (like.views group).children]

theorem Consistent.showView_children (h : s.Consistent) (hlt : id < s.count) {group : ViewId}
    (hparent : s.parents id = some group) (hnew : id ∉ (s.views group).children)
    (hgroup : (s.views group).layout ≠ none) :
    ((s.showView id).views group).children = (s.views group).children ++ [id] := by
  have like : s.Like (s.modify id .shown) := .modify ⟨rfl, rfl, rfl, rfl, rfl, rfl, rfl⟩
  have tree := h.tree.of_like like
  unfold Screen.showView
  generalize s.modify id .shown = s' at like tree
  have hid : (s'.views id).parent = some group := (congrFun like.parents id).trans hparent
  simp only [hid]
  have hmem : id ∉ (s'.views group).children := by
    rwa [(like.views group).children]
  have hlt' : id < (s'.adopt group id).count := by
    rw [Screen.adopt, modify_count, like.count]
    exact hlt
  have told := (parent_told _ (tree.adopt hid (like.count ▸ hlt) hmem) hlt' visibilityChange).1
  rw [modify_same]
  refine ((told.like.views group).children).trans ?_
  rw [Screen.adopt, regroup_children_same _ fun hnone => ?_, (like.views group).children]
  rw [(like.views group).layout] at hnone
  exact absurd hnone hgroup

theorem Consistent.showView_kin (h : s.Consistent) (hlt : id < s.count)
    (hnew : ∀ group, (s.views id).parent = some group → id ∉ (s.views group).children) :
    s.Kin (s.showView id) (fun other => s.parents id = some other) (· = id) := by
  have like : s.Like (s.modify id .shown) := .modify ⟨rfl, rfl, rfl, rfl, rfl, rfl, rfl⟩
  have tree := h.tree.of_like like
  unfold Screen.showView
  generalize s.modify id .shown = s' at like tree
  dsimp only
  have hid : (s'.views id).parent = s.parents id := congrFun like.parents id
  cases hparent : (s'.views id).parent with
  | none => exact like.kin _ _
  | some group =>
    have hmem : id ∉ (s'.views group).children := by
      rw [(like.views group).children]
      exact hnew group ((like.views id).parent ▸ hparent)
    have hlt' : id < (s'.adopt group id).count := by
      rw [Screen.adopt, modify_count, like.count]
      exact hlt
    have told := (parent_told _ (tree.adopt hparent (like.count ▸ hlt) hmem) hlt'
      visibilityChange).1
    have hadopt := regroup_kin (· = id) s' group (· ++ [id])
      fun children child hchild => (List.mem_append.mp hchild).imp_right List.mem_singleton.mp
    have hshown : s'.Kin ((s'.adopt group id).parent (s'.adopt group id).count id
        visibilityChange) (· = group) (· = id) :=
      hadopt.trans (told.like.kin (fun _ => False) _) (fun _ _ h => h.elim) fun _ h => h
    have last : ((s'.adopt group id).parent (s'.adopt group id).count id visibilityChange).Like
        (((s'.adopt group id).parent (s'.adopt group id).count id visibilityChange).modify group
          (·.setChange (Change.sizeHeight ||| Change.sizeWidth))) := .modify (setChange_like _ _)
    refine ((like.kin _ _).trans hshown ?_ fun _ h => h).trans (last.kin (fun _ => False) _)
      (fun _ _ h => h.elim) fun _ h => h
    rintro other - rfl
    rw [← hid, hparent]

theorem create_kin (s : Screen) (content : Content) (data : ViewData) (group : ViewId)
    (hcontent : (View.new content data group).children = []) (added : ViewId → Prop) :
    s.Kin (s.create content data group) (· = group) added := by
  have hemplace : s.Kin (s.emplace (.new content data group)) (fun _ => False)
      (fun child => child = s.count) := by
    refine ⟨Nat.le_succ _, ?_, ?_, ?_, ?_⟩
    · intro other hlt
      rw [parents, emplace_other _ (Nat.ne_of_lt hlt)]
      rfl
    · intro other hlt
      rw [emplace_other _ (Nat.ne_of_lt hlt)]
    · intro other hlt _
      rw [emplace_other _ (Nat.ne_of_lt hlt)]
    · exact emplace_forall (p := fun other view => ∀ child ∈ view.children,
        child ∈ (s.views other).children ∨ s.count ≤ child ∨ child = s.count)
        (fun _ _ _ hchild => .inl hchild) (by simp [hcontent])
  have hadopt := regroup_kin (· = s.count) (s.emplace (.new content data group)) group
    (· ++ [s.count]) fun children child hchild =>
      (List.mem_append.mp hchild).imp_right List.mem_singleton.mp
  have hemplace' : s.Kin (s.emplace (.new content data group)) (· = group)
      fun child => child = s.count := hemplace.weaken (fun _ h => h.elim) fun _ h => h
  have hboth := hemplace'.trans hadopt (fun _ _ h => h) fun _ h => h
  refine ⟨hboth.count, hboth.parents, hboth.layout, hboth.children, fun other child hchild => ?_⟩
  rcases hboth.fresh other child hchild with h | h | h
  · exact .inl h
  · exact .inr (.inl h)
  · exact .inr (.inl (Nat.le_of_eq h.symm))

mutual

theorem createView_kin (s : Screen) (group : ViewId) :
    ∀ data : DataVariant, s.Kin (s.createView group data) (· = group) fun _ => False
  | .group data layout children => by
    have hcreate := create_kin s (.group layout []) data group rfl fun _ => False
    rw [createView]
    refine hcreate.trans (createViews_kin _ s.count children) ?_ fun _ h => h
    rintro other hlt rfl
    exact absurd hlt (Nat.lt_irrefl _)
  | .panel data color => create_kin s (.color color) data group rfl _
  | .text data display color => by
    have hcreate := create_kin s (.text display color) data group rfl fun _ => False
    rw [createView]
    obtain ⟨view, heq, like, -⟩ :=
      updateText_eq (s.create (.text display color) data group) s.count display
    rw [heq]
    have hlike : (s.create (.text display color) data group).Like
        ((s.create (.text display color) data group).modify s.count fun _ => view) :=
      .modify (f := fun _ => view) like
    exact hcreate.trans (hlike.kin (fun _ => False) _) (fun _ _ h => h.elim) fun _ h => h
  | .texture data texture => create_kin s (.texture texture) data group rfl _

theorem createViews_kin (s : Screen) (group : ViewId) :
    ∀ datas : List DataVariant, s.Kin (s.createViews group datas) (· = group) fun _ => False
  | [] => .refl s _ _
  | data :: datas => by
    rw [createViews]
    exact (createView_kin s group data).trans (createViews_kin _ group datas)
      (fun _ _ h => h) fun _ h => h

end

theorem creation_kin (s : Screen) (tree : s.Tree) (hlt : id < s.count) :
    s.Kin (s.creation id) (fun _ => False) fun _ => False := by
  have hrewrapped := rewrap_rewrapped s id true true
  have hlt' : id < (s.rewrap id true true).1.count := by
    rw [hrewrapped.like.count]
    exact hlt
  have told := (parent_told _ (tree.of_like hrewrapped.like) hlt' (s.rewrap id true true).2).1
  have last : ((s.rewrap id true true).1.parent (s.rewrap id true true).1.count id
      (s.rewrap id true true).2).Like
        (((s.rewrap id true true).1.parent (s.rewrap id true true).1.count id
          (s.rewrap id true true).2).modify id
            (·.setChange (s.rewrap id true true).2.flags)) := .modify (setChange_like _ _)
  exact ((hrewrapped.like.trans told.like).trans last).kin _ _

theorem Valid.hideItems_kin (h : s.Valid root) {items index : ℕ}
    (hsome : s.hideItems id items index = some s') : s.Kin s' (· = id) fun _ => False := by
  induction items generalizing s index with
  | zero =>
    obtain rfl := Option.some.inj hsome
    exact .refl s _ _
  | succ items ih =>
    unfold Screen.hideItems at hsome
    split at hsome
    · cases hsome
    · rename_i child hchild
      obtain ⟨hparent, hlt⟩ := h.consistent.tree.child id child (List.mem_of_getElem? hchild)
      have hhide := h.consistent.hide_kin hlt
      refine (hhide.weaken ?_ fun _ h => h).trans (ih (h.hide hlt) hsome) (fun _ _ h => h)
        fun _ h => h
      intro other hother
      rw [hparent] at hother
      exact (Option.some.inj hother).symm

theorem Valid.reactText_kin (h : s.Valid root) (hlt : id < s.count) {display before : List UInt8}
    {color : Option Color} (hcontent : (s.views id).content = .text before color) :
    s.Kin (s.reactText id display) (fun _ => False) fun _ => False := by
  simp only [Screen.reactText, hcontent]
  obtain ⟨view, heq, like, -⟩ := updateText_eq
    (s.modify id fun view => { view with content := .text display color }) id display
  rw [modify_same] at like
  rw [modify_modify] at heq
  rw [heq]
  have hchildren : view.children = (s.views id).children := by
    rw [like.children]
    simp [View.children, hcontent]
  have hkin : s.Kin (s.modify id fun _ => view) (fun _ => False) fun _ => False := by
    have children : ∀ other, ((s.modify id fun _ => view).views other).children =
        (s.views other).children :=
      modify_forall (p := fun other view => view.children = (s.views other).children)
        (fun _ _ => rfl) hchildren
    refine ⟨Nat.le_refl _, fun other _ => ?_, fun other _ => ?_, fun other _ _ => children other,
      fun other child hchild => .inl (by rwa [← children])⟩
    · exact modify_forall (p := fun other view => view.parent = s.parents other) (fun _ _ => rfl)
        like.parent other
    · refine modify_forall (p := fun other view => view.layout = (s.views other).layout)
        (fun _ _ => rfl) ?_ other
      rw [like.layout]
      simp [View.layout, hcontent]
  have tree : (s.modify id fun _ => view).Tree := by
    refine h.consistent.tree.congr (funext fun other => ?_) (fun other => ?_) rfl
    · exact modify_forall (p := fun other view => view.parent = s.parents other) (fun _ _ => rfl)
        like.parent other
    · refine modify_forall (p := fun other view => view.children.Sublist (s.views other).children)
        (fun _ _ => .refl _) ?_ other
      simp only [hchildren, List.Sublist.refl]
  exact hkin.trans ((parent_told _ tree hlt _).1.like.kin (fun _ => False) _)
    (fun _ _ h => h) fun _ h => h

end Screen

/-- The groups that may get other children -/
def Message.Changes (s : Screen) : Message → ViewId → Prop
  | .list view _ _, group => group = view
  | .close target, group => s.parents target = some group
  | .showView view, group => s.parents view = some group
  | _, _ => False

/-- The views that become children of their group again -/
def Message.Adds : Message → ViewId → Prop
  | .showView view, child => child = view
  | _, _ => False

namespace Screen

variable {s s' t : Screen} {id root : ViewId}

/-- What a message does to the tree -/
theorem Valid.step_kin (h : s.Valid root) {message : Message} (accepts : s.Accepts message)
    (hstep : s.step root message = .ok s') : s.Kin s' (message.Changes s) message.Adds := by
  cases message with
  | text view display =>
    obtain ⟨hlt, before, color, hcontent⟩ := accepts
    obtain rfl := Except.ok.inj hstep
    exact h.reactText_kin hlt hcontent
  | list view itemTemplate size =>
    obtain ⟨hlt, -⟩ := accepts
    simp only [Screen.step] at hstep
    split at hstep
    · cases hstep
    · rename_i hlist
      obtain rfl := Except.ok.inj hstep
      unfold Screen.reactList at hlist
      dsimp only at hlist
      split_ifs at hlist
      · obtain rfl := Option.some.inj hlist
        exact .refl s _ _
      · obtain rfl := Option.some.inj hlist
        have hbut := createViews_creates (h.consistent.but (some view))
          (h.rooted.fresh h.consistent.tree) hlt (.inl rfl)
          (List.replicate (size - (s.views view).children.length) itemTemplate)
        exact (createViews_kin s view _).trans
          (creation_kin _ hbut.but.tree (Nat.lt_of_lt_of_le hlt hbut.grown.count))
          (fun _ _ h => h.elim) fun _ h => h
      · exact h.hideItems_kin hlist
  | close target =>
    obtain rfl := Except.ok.inj hstep
    exact h.consistent.hide_kin accepts
  | selection target state =>
    obtain rfl := Except.ok.inj hstep
    have hvisited := visit_visited (restate_touches state) s.count h.consistent.tree accepts
      (Nat.le_add_right _ _)
    have hlt : target < (s.visit (restate state) s.count target).count := by
      rw [hvisited.like.count]
      exact accepts
    have told := (parent_told _ (h.consistent.tree.of_like hvisited.like) hlt ⟨Change.data⟩).1
    exact (hvisited.like.trans told.like).kin _ _
  | showView view =>
    obtain rfl := Except.ok.inj hstep
    exact h.consistent.showView_kin accepts.1 fun group hgroup => (accepts.2 group hgroup).1
  | refresh =>
    obtain rfl := Except.ok.inj hstep
    obtain ⟨-, hpassed, -⟩ := refreshes_refresh s.count s root h.consistent h.rooted.root_lt
      (Nat.le_add_right _ _)
    exact hpassed.like.kin _ _

/-! ## Hidden views -/

/-- Of two views from which a third is reached, one is reached from the other. -/
theorem Tree.reach_total (h : s.Tree) {a b c : ViewId} (ha : s.Reach a c) (hb : s.Reach b c) :
    s.Reach a b ∨ s.Reach b a := by
  induction ha generalizing b with
  | refl => exact .inr hb
  | tail hreach hchild ih =>
    rename_i group child
    rcases Relation.ReflTransGen.cases_tail hb with heq | ⟨group', hreach', hchild'⟩
    · subst heq
      exact .inl (hreach.tail hchild)
    · have hparent := (h.child group child hchild).1
      rw [(h.child group' child hchild').1] at hparent
      rw [Option.some.inj hparent] at hreach'
      exact ih hreach'

/-- A view that is nobody's child, beside the root -/
structure Detached (root id : ViewId) (s : Screen) : Prop where
  valid : s.Valid root
  lt : id < s.count
  parent : s.parents root = none
  ne : id ≠ root
  child : ∀ group, id ∉ (s.views group).children

/-- Nothing under a detached view is rendered. -/
theorem Detached.unrendered (h : s.Detached root id) {other : ViewId} (hreach : s.Reach id other) :
    (s.views other).status.rendered = false := by
  cases hrendered : (s.views other).status.rendered with
  | false => rfl
  | true =>
    have tree := h.valid.consistent.tree
    rcases tree.reach_total hreach (h.valid.rooted.rendered other hrendered) with hback | hback
    · rcases Relation.ReflTransGen.cases_tail hback with heq | ⟨group, -, hchild⟩
      · exact absurd heq.symm h.ne
      · have := (tree.child group root hchild).1
        rw [h.parent] at this
        cases this
    · rcases Relation.ReflTransGen.cases_tail hback with heq | ⟨group, -, hchild⟩
      · exact absurd heq h.ne
      · exact absurd hchild (h.child group)

theorem Detached.step (h : s.Detached root id) {message : Message} (accepts : s.Accepts message)
    (hadds : ¬ message.Adds id) (hstep : s.step root message = .ok s') : s'.Detached root id where
  valid := step_valid h.valid accepts hstep
  lt := Nat.lt_of_lt_of_le h.lt (h.valid.step_kin accepts hstep).count
  parent := ((h.valid.step_kin accepts hstep).parents root h.valid.rooted.root_lt).trans h.parent
  ne := h.ne
  child := by
    intro group hchild
    rcases (h.valid.step_kin accepts hstep).fresh group id hchild with hold | hle | hadd
    · exact h.child group hold
    · exact absurd h.lt (Nat.not_lt_of_le hle)
    · exact hadds hadd

/-- Hiding a view that has a group detaches it. -/
theorem Valid.hide_detached (h : s.Valid root) (hlt : id < s.count)
    (hroot : s.parents root = none) {group : ViewId} (hparent : s.parents id = some group) :
    (s.hide id).Detached root id where
  valid := h.hide hlt
  lt := Nat.lt_of_lt_of_le hlt (h.consistent.hide_kin hlt).count
  parent := ((h.consistent.hide_kin hlt).parents root h.rooted.root_lt).trans hroot
  ne := by
    rintro rfl
    rw [hroot] at hparent
    cases hparent
  child := by
    intro other hchild
    have tree := (h.consistent.hide hlt).tree
    have hkin := h.consistent.hide_kin hlt
    have hother := (tree.child other id hchild).1
    rw [hkin.parents id hlt, hparent] at hother
    obtain rfl := Option.some.inj hother
    rw [h.consistent.hide_children hlt hparent] at hchild
    exact (h.consistent.tree.nodup group).not_mem_erase hchild

/-- Until it is shown again, the renderer draws nothing of a view that was hidden, whatever else
happens. -/
theorem hidden_undrawn {start : Screen} (initial : start.Initial root)
    (h : Reached (Screen.step root) Screen.Accepts start s) (hlt : id < s.count)
    (hroot : s.parents root = none) {group : ViewId} (hparent : s.parents id = some group)
    (h' : Reached (Screen.step root) (fun s message => s.Accepts message ∧ ¬ message.Adds id)
      (s.hide id) t) :
    ∃ picture, Picture.replay t.posts = some picture ∧
      ∀ other, t.Reach id other → picture other = none := by
  have hdetached : t.Detached root id :=
    h'.invariant ((reached_valid initial h).hide_detached hlt hroot hparent)
      fun hs meets hstep => hs.step meets.1 meets.2 hstep
  obtain ⟨picture, hreplay, hshown⟩ := hdetached.valid.consistent.pictured
  refine ⟨picture, hreplay, fun other hreach => ?_⟩
  have hrendered := (hshown other).rendered
  rw [hdetached.unrendered hreach] at hrendered
  simpa using hrendered.symm

theorem hidden_undrawn_tabWindow :
    ∃ picture, Picture.replay ((tabWindow.hide 2).refresh 8 0).posts = some picture ∧
      ∀ other, ((tabWindow.hide 2).refresh 8 0).Reach 2 other → picture other = none :=
  hidden_undrawn tabWindow_initial .start (by decide) rfl
    (show tabWindow.parents 2 = some 1 from rfl) (.step (a := .refresh) .start ⟨trivial, nofun⟩ rfl)

end Screen

/-! ## Tabs -/

/-- `controller::tab_t` -/
structure TabController where
  pagerView : ViewId
  activeTab : ViewId
  pages : List ViewId
  tabs : List ViewId
  deriving DecidableEq, Repr

namespace Screen

variable {s s' t : Screen} {id root : ViewId} {controller : TabController}

/-- `controller::activate`; none when the tab is not found, or there is no page to hide or show -/
def activate (s : Screen) (controller : TabController) (target : ViewId) :
    Option (Screen × TabController) :=
  if controller.activeTab = target then some (s, controller)
  else
    match controller.tabs.idxOf? target with
    | none => none
    | some index =>
      let s := s.status controller.activeTab .default
      let s := s.status target .pressed
      match (s.views controller.pagerView).children[0]?, controller.pages[index]? with
      | some shown, some page =>
        some ((s.hide shown).showView page, { controller with activeTab := target })
      | _, _ => none

/-- The page that belongs to the active tab -/
def TabController.page (controller : TabController) : Option ViewId :=
  (controller.tabs.idxOf? controller.activeTab).bind (controller.pages[·]?)

/-- The pager of a tab controller shows the page of the active tab. -/
structure Tabbed (root : ViewId) (s : Screen) (controller : TabController) : Prop where
  valid : s.Valid root
  parent : s.parents root = none
  length : controller.pages.length = controller.tabs.length
  tabs : ∀ tab ∈ controller.tabs, tab < s.count
  active : controller.activeTab ∈ controller.tabs
  pages : ∀ page ∈ controller.pages,
    page < s.count ∧ s.parents page = some controller.pagerView
  pager : controller.pagerView < s.count ∧ (s.views controller.pagerView).layout ≠ none
  page : ∃ page, TabController.page controller = some page ∧
    (s.views controller.pagerView).children = [page]

theorem idxOf?_of_mem {tabs : List ViewId} {tab : ViewId} (h : tab ∈ tabs) :
    ∃ index, tabs.idxOf? tab = some index ∧ index < tabs.length := by
  cases hindex : tabs.idxOf? tab with
  | none => exact absurd h (List.idxOf?_eq_none_iff.mp hindex)
  | some index =>
    refine ⟨index, rfl, ?_⟩
    exact (List.findIdx?_eq_some_iff_findIdx_eq.mp hindex).1

/-- What leaves the pager and its pages alone keeps the controller's view of them. -/
theorem Tabbed.kin {changed added : ViewId → Prop} (h : s.Tabbed root controller)
    (kin : s.Kin s' changed added) (hvalid : s'.Valid root)
    (hpager : ¬ changed controller.pagerView) : s'.Tabbed root controller where
  valid := hvalid
  parent := (kin.parents root h.valid.rooted.root_lt).trans h.parent
  length := h.length
  tabs tab htab := Nat.lt_of_lt_of_le (h.tabs tab htab) kin.count
  active := h.active
  pages page hpage := ⟨Nat.lt_of_lt_of_le (h.pages page hpage).1 kin.count,
    (kin.parents page (h.pages page hpage).1).trans (h.pages page hpage).2⟩
  pager := ⟨Nat.lt_of_lt_of_le h.pager.1 kin.count, by
    rw [kin.layout _ h.pager.1]
    exact h.pager.2⟩
  page := by
    obtain ⟨page, hpage, hchildren⟩ := h.page
    exact ⟨page, hpage, (kin.children _ h.pager.1 hpager).trans hchildren⟩

theorem Tabbed.status (h : s.Tabbed root controller) {tab : ViewId} (htab : tab ∈ controller.tabs)
    (state : State) : (s.status tab state).Tabbed root controller :=
  h.kin (h.valid.step_kin (show s.Accepts (.selection tab state) from h.tabs tab htab) rfl)
    (h.valid.status (h.tabs tab htab) state) fun h => h

/-- Activating a tab succeeds, and leaves its page in the pager. -/
theorem Tabbed.activate (h : s.Tabbed root controller) {target : ViewId}
    (htarget : target ∈ controller.tabs) :
    ∃ s', s.activate controller target = some (s', { controller with activeTab := target }) ∧
      s'.Tabbed root { controller with activeTab := target } := by
  unfold Screen.activate
  split_ifs with heq
  · subst heq
    exact ⟨s, rfl, h⟩
  · obtain ⟨index, hindex, hlt⟩ := idxOf?_of_mem htarget
    simp only [hindex]
    have h' := (h.status h.active .default).status htarget .pressed
    generalize (s.status controller.activeTab .default).status target .pressed = s' at h'
    obtain ⟨shown, -, hshown⟩ := h'.page
    have hpageLt : index < controller.pages.length := by
      rw [h.length]
      exact hlt
    have hpage : controller.pages[index]? = some controller.pages[index] :=
      List.getElem?_eq_getElem hpageLt
    obtain ⟨hlt', hparent⟩ := h'.pages _ (List.getElem_mem hpageLt)
    have hchild : shown ∈ (s'.views controller.pagerView).children := by simp [hshown]
    obtain ⟨hshownParent, hshownLt⟩ := h'.valid.consistent.tree.child _ shown hchild
    have hhide := h'.valid.consistent.hide_kin hshownLt
    have hvalid := h'.valid.hide hshownLt
    have hempty : ((s'.hide shown).views controller.pagerView).children = [] := by
      rw [h'.valid.consistent.hide_children hshownLt hshownParent, hshown]
      simp
    have hparent' := (hhide.parents _ hlt').trans hparent
    have hnew : ∀ group, ((s'.hide shown).views controller.pages[index]).parent = some group →
        controller.pages[index] ∉ ((s'.hide shown).views group).children := by
      intro group hgroup
      rw [← Option.some.inj (hparent'.symm.trans hgroup), hempty]
      exact List.not_mem_nil
    have hlt'' := Nat.lt_of_lt_of_le hlt' hhide.count
    have hshow := hvalid.consistent.showView_kin hlt'' hnew
    have hlayout : ((s'.hide shown).views controller.pagerView).layout ≠ none := by
      rw [hhide.layout _ h'.pager.1]
      exact h'.pager.2
    have both : s'.Kin ((s'.hide shown).showView controller.pages[index]) (fun _ => True)
        fun _ => True :=
      (hhide.weaken (fun _ _ => trivial) fun _ _ => trivial).trans hshow (fun _ _ _ => trivial)
        fun _ _ => trivial
    refine ⟨(s'.hide shown).showView controller.pages[index], ?_, ?_⟩
    · simp [hshown, hpage]
    · refine ⟨hvalid.showView hlt'' hnew,
        (both.parents root h'.valid.rooted.root_lt).trans h'.parent, h.length,
        fun tab htab => Nat.lt_of_lt_of_le (h'.tabs tab htab) both.count, htarget,
        fun page hpage => ⟨Nat.lt_of_lt_of_le (h'.pages page hpage).1 both.count,
          (both.parents page (h'.pages page hpage).1).trans (h'.pages page hpage).2⟩,
        ⟨Nat.lt_of_lt_of_le h'.pager.1 both.count, ?_⟩, controller.pages[index], ?_, ?_⟩
      · rw [both.layout _ h'.pager.1]
        exact h'.pager.2
      · simp [TabController.page, hindex, hpage]
      · have hpagerLt := Nat.lt_of_lt_of_le h'.pager.1 hhide.count
        rw [hvalid.consistent.showView_children hlt'' hparent' (by rw [hempty]; simp) hlayout,
          hempty]
        rfl

end Screen

/-- A click on a tab, or another message -/
inductive TabMessage
  | tab (target : ViewId)
  | other (message : Message)

namespace Screen

variable {s s' t : Screen} {id root : ViewId} {controller : TabController}

/-- The views with a tab controller take a message. -/
def tabStep (root : ViewId) (state : Screen × TabController) :
    TabMessage → Except Misuse (Screen × TabController)
  | .tab target =>
    match state.1.activate state.2 target with
    | none => .error .outOfRange
    | some state => .ok state
  | .other message =>
    match state.1.step root message with
    | .error error => .error error
    | .ok s => .ok (s, state.2)

/-- Only tabs are clicked as such, and other messages leave the children of the pager alone. -/
def TabAccepts (state : Screen × TabController) : TabMessage → Prop
  | .tab target => target ∈ state.2.tabs
  | .other message => state.1.Accepts message ∧ ¬ message.Changes state.1 state.2.pagerView

/-- The invariant of runs with a tab controller -/
def TabInvariant (root : ViewId) (state : Screen × TabController) : Prop :=
  state.1.Tabbed root state.2

theorem Tabbed.step {state state' : Screen × TabController} (h : state.1.Tabbed root state.2)
    {message : TabMessage} (accepts : TabAccepts state message)
    (hstep : tabStep root state message = .ok state') :
    state'.1.Tabbed root state'.2 ∧ state'.2.pages = state.2.pages := by
  cases message with
  | tab target =>
    obtain ⟨s', heq, htabbed⟩ := h.activate accepts
    simp only [tabStep, heq] at hstep
    obtain rfl := Except.ok.inj hstep
    exact ⟨htabbed, rfl⟩
  | other message =>
    simp only [tabStep] at hstep
    split at hstep
    · cases hstep
    · rename_i s' hs
      obtain rfl := Except.ok.inj hstep
      exact ⟨h.kin (h.valid.step_kin accepts.1 hs) (step_valid h.valid accepts.1 hs) accepts.2,
        rfl⟩

/-- Nothing of a page that is not shown is rendered. -/
theorem Tabbed.unrendered (h : s.Tabbed root controller) {page shown other : ViewId}
    (hpage : page ∈ controller.pages)
    (hshown : (s.views controller.pagerView).children = [shown]) (hne : page ≠ shown)
    (hreach : s.Reach page other) : (s.views other).status.rendered = false := by
  obtain ⟨hlt, hparent⟩ := h.pages page hpage
  have hdetached : s.Detached root page := by
    refine ⟨h.valid, hlt, h.parent, ?_, fun group hchild => ?_⟩
    · rintro rfl
      rw [h.parent] at hparent
      cases hparent
    · have hgroup := (h.valid.consistent.tree.child group page hchild).1
      rw [hparent] at hgroup
      rw [← Option.some.inj hgroup, hshown] at hchild
      exact hne (List.mem_singleton.mp hchild)
  exact hdetached.unrendered hreach

/-- Whatever is clicked and whatever else happens, the pager of a tab controller has the page of
the active tab as its only child, the renderer draws nothing of the other pages, and every tab
can be activated. -/
theorem tabs_show_active {start : Screen} {first : TabController} {state : Screen × TabController}
    (tabbed : start.Tabbed root first)
    (h : Reached (tabStep root) TabAccepts (start, first) state) :
    (∃ page, TabController.page state.2 = some page ∧
      (state.1.views state.2.pagerView).children = [page] ∧
      ∃ picture, Picture.replay state.1.posts = some picture ∧
        ∀ hidden ∈ state.2.pages, hidden ≠ page → ∀ other, state.1.Reach hidden other →
          picture other = none) ∧
      ∀ target ∈ state.2.tabs, ∃ s', state.1.activate state.2 target =
        some (s', { state.2 with activeTab := target }) := by
  have hinvariant : TabInvariant root state :=
    h.invariant tabbed fun hs meets hstep => (Tabbed.step hs meets hstep).1
  have htabbed : state.1.Tabbed root state.2 := hinvariant
  obtain ⟨page, hpage, hchildren⟩ := htabbed.page
  obtain ⟨picture, hreplay, hshown⟩ := htabbed.valid.consistent.pictured
  refine ⟨⟨page, hpage, hchildren, picture, hreplay, fun hidden hhidden hne other hreach => ?_⟩,
    fun target htarget => ?_⟩
  · have hrendered := (hshown other).rendered
    rw [htabbed.unrendered hhidden hchildren hne hreach] at hrendered
    simpa using hrendered.symm
  · obtain ⟨s', heq, -⟩ := htabbed.activate htarget
    exact ⟨s', heq⟩

theorem tabWindow_tabbed : tabWindow.Tabbed 0 ⟨5, 3, [6, 7], [3, 4]⟩ where
  valid := tabWindow_initial.valid
  parent := rfl
  length := rfl
  tabs := by decide
  active := by decide
  pages := by decide
  pager := by decide
  page := ⟨6, by decide, by decide⟩

/-- The second tab is clicked, and a frame is drawn. -/
theorem tabs_show_active_tabWindow :
    ∃ state, Reached (tabStep 0) TabAccepts (tabWindow, ⟨5, 3, [6, 7], [3, 4]⟩) state ∧
      ((∃ page, TabController.page state.2 = some page ∧
        (state.1.views state.2.pagerView).children = [page] ∧
        ∃ picture, Picture.replay state.1.posts = some picture ∧
          ∀ hidden ∈ state.2.pages, hidden ≠ page → ∀ other, state.1.Reach hidden other →
            picture other = none) ∧
        ∀ target ∈ state.2.tabs, ∃ s', state.1.activate state.2 target =
          some (s', { state.2 with activeTab := target })) := by
  have htab : (4 : ViewId) ∈ [3, 4] := by decide
  obtain ⟨s', heq, -⟩ := tabWindow_tabbed.activate htab
  have haccepts : TabAccepts (tabWindow, ⟨5, 3, [6, 7], [3, 4]⟩) (.tab 4) := htab
  have hclicked : Reached (tabStep 0) TabAccepts (tabWindow, ⟨5, 3, [6, 7], [3, 4]⟩)
      (s', ⟨5, 4, [6, 7], [3, 4]⟩) :=
    .step (a := .tab 4) .start haccepts (by simp only [tabStep, heq])
  have hreached : Reached (tabStep 0) TabAccepts (tabWindow, ⟨5, 3, [6, 7], [3, 4]⟩)
      (s'.refresh s'.count 0, ⟨5, 4, [6, 7], [3, 4]⟩) :=
    .step (a := .other .refresh) hclicked ⟨trivial, nofun⟩ rfl
  exact ⟨_, hreached, tabs_show_active tabWindow_tabbed hreached⟩

end Screen

end Fimbulwinter.Gui
