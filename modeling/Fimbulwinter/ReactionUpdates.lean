import Fimbulwinter.Reactions

/-! # Updates of observed data

What fits the nodes is updated without a failure, and in the end all views that observe it display
it. -/
namespace Fimbulwinter.Reactions

/-! ## Updates -/

def Value.get? : Value → Path → Option Value
  | value, [] => some value
  | .values data, .index i :: path => data[i]?.bind fun value => value.get? path
  | .keyValues data, .key key :: path => (lookup key data).bind fun value => value.get? path
  | _, _ :: _ => none

/-- What is sent to a path is of the kind that is there: maps have each key once and only keys that
are there, and lists do not become shorter by more than one item than any of the groups that show
them. -/
def State.FitsAt (s : State) (path : Path) : Value → Prop
  | .values data => s.root.kind? path = some .list ∧
    ∀ controller, s.Controls controller path → (s.controllers controller).size ≤ data.length + 1
  | .keyValues data => s.root.kind? path = some .map ∧ (data.map Prod.fst).Nodup ∧
    ∀ pair ∈ data, (s.root.kind? (path ++ [.key pair.1])).isSome
  | .null => True
  | .text _ => s.root.kind? path = some .text

def State.Fits (s : State) (path : Path) (value : Value) : Prop :=
  ∀ rest part, value.get? rest = some part → s.FitsAt (path ++ rest) part

/-- An update of what is sent: the views show it in the end, those that are new to it included, and
the other ones show what they have shown. -/
structure Updates (fresh resized : Path → Prop) (sent : Path → String → Prop) (s s' : State) :
    Prop where
  changes : Changes fresh resized s s'
  good : s'.Good
  shows : ∀ view path text, sent path text → s'.Observes view path → s'.displays view = text
  keeps : ∀ view path, s.Observes view path → (∀ text, ¬ sent path text) →
    s'.displays view = s.displays view

section

variable {fresh resized fresh' resized' : Path → Prop} {sent sent' : Path → String → Prop}
  {s s' s'' : State} {path : Path}

theorem Creates.updates (h : Creates fresh resized s s') (good : s.Good) :
    Updates fresh resized (fun _ _ => False) s s' :=
  ⟨h.changes, h.good, fun _ _ _ h => h.elim, fun view path hobserves _ =>
    h.kept view (good.views view path hobserves)⟩

theorem Updates.trans (h : Updates fresh resized sent s s')
    (h' : Updates fresh' resized' sent' s' s'')
    (apart : ∀ path text, sent path text → ¬ fresh' path ∧ ∀ text', ¬ sent' path text') :
    Updates (fun path => fresh path ∨ fresh' path) (fun path => resized path ∨ resized' path)
      (fun path text => sent path text ∨ sent' path text) s s'' where
  changes := (h.changes.mono (fun _ => .inl) fun _ => .inl).trans
    (h'.changes.mono (fun _ => .inr) fun _ => .inr)
  good := h'.good
  shows view path text hsent hobserves := by
    rcases hsent with hfirst | hsecond
    · obtain ⟨hfresh, hnot⟩ := apart path text hfirst
      have hold := (h'.changes.new view path hobserves).resolve_right fun hnew => hfresh hnew.1
      rw [h'.keeps view path hold hnot]
      exact h.shows view path text hfirst hold
    · exact h'.shows view path text hsecond hobserves
  keeps view path hobserves hnot := by
    rw [h'.keeps view path (h.changes.observes view path hobserves) fun text hsent =>
      hnot text (.inr hsent)]
    exact h.keeps view path hobserves fun text hsent => hnot text (.inl hsent)

theorem Updates.mono (h : Updates fresh resized sent s s')
    (hfresh : ∀ path, fresh path → fresh' path)
    (hresized : ∀ path, resized path → resized' path)
    (hsent : ∀ path text, sent path text ↔ sent' path text) :
    Updates fresh' resized' sent' s s' :=
  ⟨h.changes.mono hfresh hresized, h.good,
    fun view path text htext => h.shows view path text ((hsent path text).mpr htext),
    fun view path hobserves hnot => h.keeps view path hobserves fun text htext =>
      hnot text ((hsent path text).mp htext)⟩

/-- What fits still fits after changes elsewhere. -/
theorem State.Fits.changes {value : Value} (h : s.Fits path value) (good : s.Good)
    (changes : Changes fresh resized s s') (apart : ∀ rest, ¬ resized (path ++ rest)) :
    s'.Fits path value := by
  intro rest part hpart
  have := h rest part hpart
  cases part with
  | values data =>
    refine ⟨(changes.kind _).trans this.1, fun controller hcontrols => ?_⟩
    have hcontrols := (changes.controls controller _).mp hcontrols
    rcases changes.sizes controller with hsame | ⟨other, hresized, hother⟩
    · rw [hsame]
      exact this.2 controller hcontrols
    · rw [good.single controller other _ hother hcontrols] at hresized
      exact (apart rest hresized).elim
  | keyValues data =>
    exact ⟨(changes.kind _).trans this.1, this.2.1, fun pair hmem => by
      rw [changes.kind]
      exact this.2.2 pair hmem⟩
  | null => trivial
  | text text => exact (changes.kind _).trans this

theorem State.Fits.item {data : List Value} (h : s.Fits path (.values data)) {i : ℕ} {value : Value}
    (hvalue : data[i]? = some value) : s.Fits (path ++ [.index i]) value := by
  intro rest part hpart
  rw [List.append_assoc, List.singleton_append]
  exact h _ part (by simp only [Value.get?, hvalue, Option.bind_some, hpart])

theorem State.Fits.pair {data : List (Asset × Value)} (h : s.Fits path (.keyValues data))
    (nodup : (data.map Prod.fst).Nodup) {key : Asset} {value : Value} (hmem : (key, value) ∈ data) :
    s.Fits (path ++ [.key key]) value := by
  intro rest part hpart
  rw [List.append_assoc, List.singleton_append]
  exact h _ part (by
    simp only [Value.get?, lookup_of_mem nodup hmem, Option.bind_some, hpart])

theorem part_eq_below {part part' : Part} {rest : Path}
    (h : path ++ [part] <+: path ++ part' :: rest) : part = part' := by
  rw [List.prefix_append_right_inj, List.cons_prefix_cons] at h
  exact h.1

/-- A list that has grown has a node for each item. -/
theorem isSome_get?_grown {node : Node} (hget : s.root.get? path = some node)
    {nodes new : List Node} {size : ℕ} (hlength : new.length = size - nodes.length)
    (itemSetup : Value) (reactions : List ℕ) (i : ℕ) (hi : i < size) :
    ((s.setNode path (.list itemSetup reactions (nodes ++ new))).root.get?
      (path ++ [.index i])).isSome := by
  have hlt : i < (nodes ++ new).length := by
    rw [List.length_append, hlength]
    omega
  rw [State.setNode, Node.get?_modify_append, hget]
  simp [Node.get?, List.getElem?_eq_getElem hlt]

/-- What a value sends below a path -/
def Value.Sends (value : Value) (path other : Path) (text : String) : Prop :=
  ∃ rest, other = path ++ rest ∧ value.get? rest = some (.text text)

/-- What items send, from an index of the list on -/
def SendsItems (path : Path) (index : ℕ) (data : List Value) (other : Path) (text : String) :
    Prop :=
  ∃ (j : ℕ) (value : Value), data[j]? = some value ∧
    value.Sends (path ++ [.index (index + j)]) other text

def SendsPairs (path : Path) (data : List (Asset × Value)) (other : Path) (text : String) : Prop :=
  ∃ pair ∈ data, pair.2.Sends (path ++ [.key pair.1]) other text

/-- The items of a list from an index on -/
def InItemsFrom (path : Path) (index : ℕ) (other : Path) : Prop :=
  ∃ i, index ≤ i ∧ path ++ [.index i] <+: other

def InPairs (path : Path) (data : List (Asset × Value)) (other : Path) : Prop :=
  ∃ pair ∈ data, path ++ [.key pair.1] <+: other

mutual

/-- An update with what fits succeeds. -/
theorem update_spec : ∀ (value : Value) {s : State} {path : Path}, s.Good →
    (s.root.get? path).isSome → s.Fits path value →
    ∃ s', s.update path value = .ok s' ∧
      Updates (path <+: ·) (path <+: ·) (value.Sends path) s s'
  | .values data, s, path, good, there, fits => by
    obtain ⟨node, hget⟩ := Option.isSome_iff_exists.mp there
    obtain ⟨hkind, hsizes⟩ := fits [] _ (by rw [Value.get?])
    rw [Node.kind?_of_get? hget] at hkind
    obtain ⟨itemSetup, reactions, nodes, rfl⟩ := eq_list_of_kind? hkind
    have hhead : s.root.head? path = some (.list itemSetup reactions) := by
      rw [Node.head?, hget]
      rfl
    obtain ⟨hrepeatable, hnodup⟩ := good.setups path itemSetup reactions hhead
    obtain ⟨itemSetup', new, hexpand, hrepeatable', hleft, hlength, hnew⟩ :=
      expand_spec hrepeatable nodes (data.length - nodes.length)
    have hgrown : Creates (InItems path) (· = path) s _ :=
      setNode_spec good hget hrepeatable' hleft hnew
    have hitems := isSome_get?_grown hget hlength itemSetup' reactions
    have hcontrols (controller : ℕ) (hmem : controller ∈ reactions) :
        s.Controls controller path := ⟨itemSetup, reactions, hhead, hmem⟩
    obtain ⟨s₂, hreact, hreacted⟩ := reactLists_spec hgrown.good hnodup
      (fun controller hmem => (hgrown.changes.controls controller path).mpr
        (hcontrols controller hmem))
      data.length
      (fun controller hmem => by
        rw [List.append_nil] at hsizes
        exact hsizes controller (hcontrols controller hmem)) hitems
    have hready := hgrown.trans hreacted
    have hapart (i : ℕ) (rest : Path) : ¬ path ++ [.index i] ++ rest = path := by
      intro heq
      have := congrArg List.length heq
      simp at this
    obtain ⟨s', hupdate, hupdates⟩ := updateItems_spec data path 0 hready.good
      fun j value hvalue => by
        rw [Nat.zero_add]
        refine ⟨(fits.item hvalue).changes good hready.changes (hapart j), ?_⟩
        exact hreacted.changes.stays _ (hitems j (List.getElem?_eq_some_iff.mp hvalue).1)
    refine ⟨s', ?_, ((hready.updates good).trans hupdates fun _ _ h => h.elim).mono ?_ ?_ ?_⟩
    · simp only [State.update, hget, hexpand, hreact, hupdate]
    · rintro other (⟨i, hpre⟩ | ⟨i, -, hpre⟩) <;> exact (List.prefix_append _ _).trans hpre
    · rintro other (rfl | ⟨i, -, hpre⟩)
      · exact List.prefix_refl _
      · exact (List.prefix_append _ _).trans hpre
    · intro other text
      rw [false_or]
      constructor
      · rintro ⟨j, value, hvalue, rest, rfl, htext⟩
        exact ⟨.index j :: rest, by rw [Nat.zero_add, List.append_assoc, List.singleton_append],
          by simp only [Value.get?, hvalue, Option.bind_some, htext]⟩
      · rintro ⟨rest, rfl, htext⟩
        rcases rest with _ | ⟨key | j, rest⟩ <;> simp only [Value.get?, reduceCtorEq] at htext
        · cases htext
        · obtain ⟨value, hvalue, htext⟩ := Option.bind_eq_some_iff.mp htext
          exact ⟨j, value, hvalue, rest,
            by rw [Nat.zero_add, List.append_assoc, List.singleton_append], htext⟩
  | .keyValues data, s, path, good, there, fits => by
    obtain ⟨node, hget⟩ := Option.isSome_iff_exists.mp there
    obtain ⟨hkind, hnodup, hkeys⟩ := fits [] _ (by rw [Value.get?])
    rw [List.append_nil] at hkeys
    rw [Node.kind?_of_get? hget] at hkind
    obtain ⟨nodes, rfl⟩ := eq_map_of_kind? hkind
    obtain ⟨s', hupdate, hupdates⟩ := updatePairs_spec data path good hnodup fun pair hmem => by
      refine ⟨fits.pair hnodup hmem, ?_⟩
      obtain ⟨kind, hsome⟩ := Option.isSome_iff_exists.mp (hkeys pair hmem)
      rw [Node.kind?_of_get? hget] at hsome
      obtain ⟨child, hchild, -⟩ := Node.get?_of_kind? (fun part hpart =>
        ⟨pair.1, List.mem_singleton.mp hpart⟩) hsome
      rw [Node.get?_append, hget, Option.bind_some, hchild]
      rfl
    refine ⟨s', by simp only [State.update, hget, hupdate], hupdates.mono ?_ ?_ ?_⟩
    · rintro other ⟨pair, -, hpre⟩
      exact (List.prefix_append _ _).trans hpre
    · rintro other ⟨pair, -, hpre⟩
      exact (List.prefix_append _ _).trans hpre
    · intro other text
      constructor
      · rintro ⟨⟨key, value⟩, hmem, rest, rfl, htext⟩
        exact ⟨.key key :: rest, by rw [List.append_assoc, List.singleton_append],
          by simp only [Value.get?, lookup_of_mem hnodup hmem, Option.bind_some, htext]⟩
      · rintro ⟨rest, rfl, htext⟩
        rcases rest with _ | ⟨key | j, rest⟩ <;> simp only [Value.get?, reduceCtorEq] at htext
        · cases htext
        · obtain ⟨value, hvalue, htext⟩ := Option.bind_eq_some_iff.mp htext
          exact ⟨(key, value), mem_of_lookup hvalue, rest,
            by rw [List.append_assoc, List.singleton_append], htext⟩
  | .null, s, path, good, _, _ => by
    refine ⟨s, by rw [State.update], .refl s, good, fun view other text hsent => ?_,
      fun _ _ _ _ => rfl⟩
    obtain ⟨rest, -, htext⟩ := hsent
    rcases rest with _ | ⟨key | j, rest⟩ <;> cases htext
  | .text text, s, path, good, there, fits => by
    obtain ⟨node, hget⟩ := Option.isSome_iff_exists.mp there
    have hfits : s.FitsAt (path ++ []) (.text text) := fits [] _ (by rw [Value.get?])
    have hkind : s.root.kind? (path ++ []) = some .text := hfits
    rw [Node.kind?_of_get? hget] at hkind
    obtain ⟨reactions, rfl⟩ := eq_text_of_kind? hkind
    have hhead : s.root.head? path = some (.text reactions) := by
      rw [Node.head?, hget]
      rfl
    have hupdate : s.update path (.text text) = .ok { s with
        displays := fun view => if view ∈ reactions then text else s.displays view } := by
      simp only [State.update, hget]
    refine ⟨_, hupdate, ⟨fun _ => rfl, fun _ h => h, fun _ _ => .rfl,
      fun _ => rfl, fun _ => .inl rfl, fun _ _ h => h, fun _ _ h => .inl h, Nat.le_refl _⟩,
      ⟨good.root, good.setups, good.views, good.once, good.single, good.items⟩, ?_, ?_⟩
    · rintro view other text' ⟨rest, rfl, htext⟩ ⟨reactions', hreactions, hmem⟩
      rcases rest with _ | ⟨key | j, rest⟩ <;> cases htext
      rw [List.append_nil] at hreactions
      rw [hhead] at hreactions
      cases hreactions
      exact if_pos hmem
    · intro view other hobserves hnot
      refine if_neg fun hmem => hnot text ⟨[], ?_, by rw [Value.get?]⟩
      rw [List.append_nil]
      exact good.once view other path hobserves ⟨reactions, hhead, hmem⟩

theorem updateItems_spec : ∀ (data : List Value) {s : State} (path : Path) (index : ℕ), s.Good →
    (∀ j value, data[j]? = some value → s.Fits (path ++ [.index (index + j)]) value ∧
      (s.root.get? (path ++ [.index (index + j)])).isSome) →
    ∃ s', s.updateItems path index data = .ok s' ∧
      Updates (InItemsFrom path index) (InItemsFrom path index) (SendsItems path index data) s s'
  | [], s, path, index, good, _ => by
    refine ⟨s, by rw [State.updateItems], .refl s, good, ?_, fun _ _ _ _ => rfl⟩
    rintro view other text ⟨j, value, hvalue, -⟩
    simp at hvalue
  | value :: data, s, path, index, good, h => by
    obtain ⟨hfits, hthere⟩ := h 0 value rfl
    obtain ⟨s₁, hfirst, hupdates⟩ := update_spec value good hthere hfits
    obtain ⟨s', hsecond, hupdates'⟩ := updateItems_spec data path (index + 1)
      hupdates.good fun j value' hvalue' => by
        have heq : index + 1 + j = index + (j + 1) := by omega
        obtain ⟨hfits', hthere'⟩ := h (j + 1) value' hvalue'
        rw [heq]
        refine ⟨hfits'.changes good hupdates.changes fun rest hpre => ?_,
          hupdates.changes.stays _ hthere'⟩
        rw [List.append_assoc, List.singleton_append] at hpre
        have := part_eq_below hpre
        rw [Part.index.injEq] at this
        omega
    rw [Nat.add_zero] at hfirst
    refine ⟨s', by simp only [State.updateItems, hfirst, hsecond],
      (hupdates.trans hupdates' ?_).mono ?_ ?_ ?_⟩
    · rintro other text ⟨rest, rfl, -⟩
      rw [List.append_assoc, List.singleton_append]
      constructor
      · rintro ⟨i, hle, hpre⟩
        have := part_eq_below hpre
        rw [Part.index.injEq] at this
        omega
      · rintro text' ⟨j, value', -, rest', heq, -⟩
        have hpre : path ++ [.index (index + 1 + j)] <+: path ++ .index (index + 0) :: rest :=
          ⟨rest', heq.symm⟩
        have := part_eq_below hpre
        rw [Part.index.injEq] at this
        omega
    · rintro other (hpre | ⟨i, hle, hpre⟩)
      · exact ⟨index, Nat.le_refl _, hpre⟩
      · exact ⟨i, by omega, hpre⟩
    · rintro other (hpre | ⟨i, hle, hpre⟩)
      · exact ⟨index, Nat.le_refl _, hpre⟩
      · exact ⟨i, by omega, hpre⟩
    · intro other text
      constructor
      · rintro (hsends | ⟨j, value', hvalue', hsends⟩)
        · exact ⟨0, value, rfl, hsends⟩
        · refine ⟨j + 1, value', hvalue', ?_⟩
          rwa [show index + (j + 1) = index + 1 + j by omega]
      · rintro ⟨j, value', hvalue', hsends⟩
        rcases j with _ | j
        · cases hvalue'
          exact .inl hsends
        · refine .inr ⟨j, value', hvalue', ?_⟩
          rwa [show index + 1 + j = index + (j + 1) by omega]

theorem updatePairs_spec : ∀ (data : List (Asset × Value)) {s : State} (path : Path), s.Good →
    (data.map Prod.fst).Nodup →
    (∀ pair ∈ data, s.Fits (path ++ [.key pair.1]) pair.2 ∧
      (s.root.get? (path ++ [.key pair.1])).isSome) →
    ∃ s', s.updatePairs path data = .ok s' ∧
      Updates (InPairs path data) (InPairs path data) (SendsPairs path data) s s'
  | [], s, path, good, _, _ => by
    refine ⟨s, by rw [State.updatePairs], .refl s, good, ?_, fun _ _ _ _ => rfl⟩
    rintro view other text ⟨pair, hmem, -⟩
    cases hmem
  | (key, value) :: data, s, path, good, nodup, h => by
    obtain ⟨hnot, hnodup⟩ := List.nodup_cons.mp nodup
    obtain ⟨hfits, hthere⟩ := h (key, value) List.mem_cons_self
    have hother (pair : Asset × Value) (hmem : pair ∈ data) : key ≠ pair.1 := by
      intro heq
      exact hnot (List.mem_map.mpr ⟨pair, hmem, heq.symm⟩)
    obtain ⟨node, hget⟩ := Option.isSome_iff_exists.mp hthere
    obtain ⟨s₁, hfirst, hupdates⟩ := update_spec value good hthere hfits
    obtain ⟨s', hsecond, hupdates'⟩ := updatePairs_spec data path hupdates.good hnodup
      fun pair hmem => by
        obtain ⟨hfits', hthere'⟩ := h pair (List.mem_cons_of_mem _ hmem)
        refine ⟨hfits'.changes good hupdates.changes fun rest hpre => ?_,
          hupdates.changes.stays _ hthere'⟩
        rw [List.append_assoc, List.singleton_append] at hpre
        exact hother pair hmem (Part.key.inj (part_eq_below hpre))
    refine ⟨s', by simp only [State.updatePairs, hget, hfirst, hsecond],
      (hupdates.trans hupdates' ?_).mono ?_ ?_ ?_⟩
    · rintro other text ⟨rest, rfl, -⟩
      rw [List.append_assoc, List.singleton_append]
      constructor
      · rintro ⟨pair, hmem, hpre⟩
        exact hother pair hmem (Part.key.inj (part_eq_below hpre)).symm
      · rintro text' ⟨pair, hmem, rest', heq, -⟩
        have hpre : path ++ [.key pair.1] <+: path ++ .key key :: rest := ⟨rest', heq.symm⟩
        exact hother pair hmem (Part.key.inj (part_eq_below hpre)).symm
    · rintro other (hpre | ⟨pair, hmem, hpre⟩)
      · exact ⟨(key, value), List.mem_cons_self, hpre⟩
      · exact ⟨pair, List.mem_cons_of_mem _ hmem, hpre⟩
    · rintro other (hpre | ⟨pair, hmem, hpre⟩)
      · exact ⟨(key, value), List.mem_cons_self, hpre⟩
      · exact ⟨pair, List.mem_cons_of_mem _ hmem, hpre⟩
    · intro other text
      constructor
      · rintro (hsends | ⟨pair, hmem, hsends⟩)
        · exact ⟨(key, value), List.mem_cons_self, hsends⟩
        · exact ⟨pair, List.mem_cons_of_mem _ hmem, hsends⟩
      · rintro ⟨pair, hmem, hsends⟩
        rcases List.mem_cons.mp hmem with rfl | hmem
        · exact .inl hsends
        · exact .inr ⟨pair, hmem, hsends⟩

end

end

/-! ## Lists that become shorter -/

/-- Hiding a child takes it out of the group, so that the indices run into the end of the group. -/
theorem hideChildren_eq_error {size index more : ℕ} (hmore : 0 < more)
    (h : size + 2 ≤ index + 2 * more) : hideChildren size index more = .error .range := by
  induction more generalizing size index with
  | zero => omega
  | succ more ih =>
    rw [hideChildren]
    split
    · exact ih (by omega) (by omega)
    · rfl

section

variable {s : State} {path : Path}

theorem reactList_eq_error {controller goal : ℕ}
    (hsize : goal + 2 ≤ (s.controllers controller).size) :
    s.reactList controller goal = .error .range := by
  have hne : (s.controllers controller).size ≠ goal := by omega
  have hlt : ¬ (s.controllers controller).size < goal := by omega
  simp only [State.reactList, if_neg hne, if_neg hlt]
  rw [hideChildren_eq_error (by omega) (by omega)]

theorem reactLists_eq_error (good : s.Good) {reactions : List ℕ} (nodup : reactions.Nodup)
    (hcontrols : ∀ controller ∈ reactions, s.Controls controller path) {goal : ℕ}
    (hitems : ∀ i < goal, (s.root.get? (path ++ [.index i])).isSome) {controller : ℕ}
    (hmem : controller ∈ reactions) (hsize : goal + 2 ≤ (s.controllers controller).size) :
    s.reactLists goal reactions = .error .range := by
  induction reactions generalizing s with
  | nil => cases hmem
  | cons first reactions ih =>
    obtain ⟨hnot, hnodup⟩ := List.nodup_cons.mp nodup
    by_cases hfirst : goal + 2 ≤ (s.controllers first).size
    · rw [State.reactLists, reactList_eq_error hfirst]
    · obtain ⟨s₁, hreact, hothers, hcreates⟩ := reactList_spec good
        (hcontrols first List.mem_cons_self)
        (show (s.controllers first).size ≤ goal + 1 by omega) hitems
      have hlater : controller ∈ reactions := by
        rcases List.mem_cons.mp hmem with rfl | hlater
        · exact (hfirst hsize).elim
        · exact hlater
      rw [State.reactLists, hreact]
      refine ih hcreates.good hnodup (fun other hother => (hcreates.changes.controls other path).mpr
        (hcontrols other (List.mem_cons_of_mem _ hother)))
        (fun i hi => hcreates.changes.stays _ (hitems i hi)) hlater ?_
      rw [hothers controller fun heq => hnot (heq ▸ hlater)]
      exact hsize

/-- A list fails when it becomes shorter by two or more than a group that shows it. -/
theorem update_eq_error (good : s.Good) {data : List Value} (there : (s.root.get? path).isSome)
    (hkind : s.root.kind? path = some .list) {controller : ℕ}
    (hcontrols : s.Controls controller path)
    (hsize : data.length + 2 ≤ (s.controllers controller).size) :
    s.update path (.values data) = .error .range := by
  obtain ⟨node, hget⟩ := Option.isSome_iff_exists.mp there
  rw [← List.append_nil path, Node.kind?_of_get? hget] at hkind
  obtain ⟨itemSetup, reactions, nodes, rfl⟩ := eq_list_of_kind? hkind
  have hhead : s.root.head? path = some (.list itemSetup reactions) := by
    rw [Node.head?, hget]
    rfl
  obtain ⟨hrepeatable, hnodup⟩ := good.setups path itemSetup reactions hhead
  obtain ⟨itemSetup', new, hexpand, hrepeatable', hleft, hlength, hnew⟩ :=
    expand_spec hrepeatable nodes (data.length - nodes.length)
  have hgrown : Creates (InItems path) (· = path) s _ :=
    setNode_spec good hget hrepeatable' hleft hnew
  have hmem : controller ∈ reactions := by
    obtain ⟨itemSetup'', reactions', hsome, hmem⟩ := hcontrols
    rw [hhead] at hsome
    cases hsome
    exact hmem
  have hreact := reactLists_eq_error hgrown.good hnodup
    (fun other hother => (hgrown.changes.controls other path).mpr
      ⟨itemSetup, reactions, hhead, hother⟩)
    (isSome_get?_grown hget hlength itemSetup' reactions) hmem hsize
  simp only [State.update, hget, hexpand, hreact]

end

/-! ## Messages -/

/-- The text that a message sends to a path -/
def Message.sends : Message → Path → Option String
  | .data key value, .key other :: rest =>
    if key = other then
      match value.get? rest with
      | some (.text string) => some string
      | _ => none
    else none
  | _, _ => none

/-- Data is set up once and from a template, sent where it fits, and observed by keys that lead to
it; a controller is new, and the texts of its items observe these items. -/
def State.Accepts (s : State) : Message → Prop
  | .setup key value => s.root.get? [.key key] = none ∧ Template value
  | .data key value => (s.root.get? [.key key]).isSome ∧ s.Fits [.key key] value
  | .text observe _ => (∀ part ∈ observe, ∃ key, part = .key key) ∧
    s.root.kind? observe = some .text
  | .list observe controller _ template => (∀ part ∈ observe, ∃ key, part = .key key) ∧
    s.root.kind? observe = some .list ∧ (∀ path, ¬ s.Controls controller path) ∧
    ∀ part ∈ template, s.OwnItem observe part.1

/-- What a message does to the views -/
structure Handled (message : Message) (s s' : State) : Prop where
  good : s'.Good
  observes : ∀ view path, s.Observes view path → s'.Observes view path
  shows : ∀ view path text, message.sends path = some text → s'.Observes view path →
    s'.displays view = text
  keeps : ∀ view path, s.Observes view path → message.sends path = none →
    s'.displays view = s.displays view

theorem lookup_concat {nodes : List (Asset × Node)} {key : Asset} (node : Node) (other : Asset)
    (h : lookup key nodes = none) :
    lookup other (nodes ++ [(key, node)]) =
      if other = key then some node else lookup other nodes := by
  induction nodes with
  | nil => simp only [List.nil_append, lookup, eq_comm]
  | cons pair nodes ih =>
    rw [lookup] at h
    split at h
    · cases h
    · rename_i hkey
      rw [List.cons_append, lookup, ih h, lookup]
      by_cases heq : other = key
      · subst heq
        rw [if_neg hkey, if_pos rfl, if_pos rfl]
      · simp only [if_neg heq]

section

variable {s : State}

/-- Data is set up: a blank node comes to the map of all data. -/
theorem setup_handled (good : s.Good) {key : Asset} {value : Value}
    (accepts : s.Accepts (.setup key value)) :
    ∃ s', s.step (.setup key value) = .ok s' ∧ Handled (.setup key value) s s' := by
  obtain ⟨hnone, htemplate⟩ := accepts
  obtain ⟨nodes, hroot⟩ := eq_map_of_kind? good.root
  obtain ⟨node, left, hsetup, hblank, -, -⟩ := htemplate.setsUp
  have hlookup : lookup key nodes = none := by
    cases h : lookup key nodes with
    | none => rfl
    | some node =>
      rw [hroot] at hnone
      simp [Node.get?, h] at hnone
  have hconcat := fun other => lookup_concat node other hlookup
  refine ⟨{ s with root := .map (nodes ++ [(key, node)]) },
    by simp only [State.step, hroot, hlookup, hsetup], ?_⟩
  generalize hs' : ({ s with root := .map (nodes ++ [(key, node)]) } : State) = s'
  have hroot' : s'.root = .map (nodes ++ [(key, node)]) := by rw [← hs']
  have hhead (path : Path) : s'.root.head? path = s.root.head? path ∨
      (s.root.head? path = none ∧ ∀ head, s'.root.head? path = some head → head.Blank) := by
    rw [hroot', hroot]
    rcases path with _ | ⟨other | i, path⟩
    · exact .inl rfl
    · simp only [Node.head?, Node.get?, hconcat]
      by_cases heq : other = key
      · subst heq
        refine .inr ⟨by rw [hlookup]; rfl, fun head hsome => hblank path head ?_⟩
        simpa [Node.head?] using hsome
      · exact .inl (by rw [if_neg heq])
    · exact .inl rfl
  have hkind (path : Path) (kind : Kind) (h : s.root.kind? path = some kind) :
      s'.root.kind? path = some kind := by
    rw [hroot'] at *
    rw [hroot] at h
    rcases path with _ | ⟨other | i, path⟩
    · exact h
    · simp only [Node.kind?, hconcat] at h ⊢
      rw [if_neg, h]
      rintro rfl
      simp [hlookup] at h
    · exact h
  have hobserves (view : ViewId) (path : Path) :
      s'.Observes view path ↔ s.Observes view path := by
    unfold State.Observes
    rcases hhead path with heq | ⟨heq, hnew⟩
    · rw [heq]
    · simp only [heq, reduceCtorEq, false_and, exists_false, iff_false, not_exists, not_and]
      intro reactions hsome hmem
      rw [hnew _ hsome] at hmem
      cases hmem
  have hcontrols (controller : ℕ) (path : Path) :
      s'.Controls controller path ↔ s.Controls controller path := by
    unfold State.Controls
    rcases hhead path with heq | ⟨heq, hnew⟩
    · rw [heq]
    · simp only [heq, reduceCtorEq, false_and, exists_false, iff_false, not_exists, not_and]
      intro itemSetup reactions hsome hmem
      rw [(hnew _ hsome).1] at hmem
      cases hmem
  have hcontrollers : s'.controllers = s.controllers := by rw [← hs']
  have hcount : s'.count = s.count := by rw [← hs']
  refine ⟨⟨hkind _ _ good.root, fun path itemSetup reactions hsome => ?_,
    fun view path h => hcount ▸ good.views view path ((hobserves view path).mp h),
    fun view path path' h h' => good.once view path path' ((hobserves view path).mp h)
      ((hobserves view path').mp h'),
    fun controller path path' h h' => good.single controller path path'
      ((hcontrols controller path).mp h) ((hcontrols controller path').mp h'),
    fun controller path h part hpart => ?_⟩, fun view path h => (hobserves view path).mpr h,
    fun _ path _ hsends => ?_, fun _ _ _ _ => by rw [← hs']⟩
  · rcases hhead path with heq | ⟨-, hnew⟩
    · exact good.setups path itemSetup reactions (heq ▸ hsome)
    · have := hnew _ hsome
      exact ⟨this.2, this.1 ▸ List.nodup_nil⟩
  · rw [hcontrollers] at hpart
    obtain ⟨hstar, rest, heq, hkeys, hitem⟩ :=
      good.items controller path ((hcontrols controller path).mp h) part hpart
    exact ⟨hstar, rest, heq, hkeys, fun i => hkind _ _ (hitem i)⟩
  · cases hsends

theorem data_handled (good : s.Good) {key : Asset} {value : Value}
    (accepts : s.Accepts (.data key value)) :
    ∃ s', s.step (.data key value) = .ok s' ∧ Handled (.data key value) s s' := by
  obtain ⟨hsome, hfits⟩ := accepts
  obtain ⟨s', hupdate, hupdates⟩ := updatePairs_spec [(key, value)] [] good
    (List.nodup_singleton _) fun pair hmem => by
      obtain rfl := List.mem_singleton.mp hmem
      exact ⟨hfits, hsome⟩
  have hsends (path : Path) (text : String) : SendsPairs [] [(key, value)] path text ↔
      (Message.data key value).sends path = some text := by
    constructor
    · rintro ⟨pair, hmem, rest, rfl, htext⟩
      obtain rfl := List.mem_singleton.mp hmem
      simp only [List.nil_append, List.singleton_append, Message.sends, if_true, htext]
    · intro h
      rcases path with _ | ⟨other | i, rest⟩ <;> simp only [Message.sends, reduceCtorEq] at h
      split at h
      · rename_i heq
        subst heq
        refine ⟨(key, value), List.mem_singleton_self _, rest, rfl, ?_⟩
        split at h
        · rename_i htext
          rw [htext, ← Option.some.inj h]
        · cases h
      · cases h
  refine ⟨s', hupdate, hupdates.good, hupdates.changes.observes,
    fun view path text htext => hupdates.shows view path text ((hsends path text).mpr htext),
    fun view path hobserves hnone => hupdates.keeps view path hobserves fun text htext => ?_⟩
  rw [(hsends path text).mp htext] at hnone
  cases hnone

theorem text_handled (good : s.Good) {observe : Path} {display : String}
    (accepts : s.Accepts (.text observe display)) :
    ∃ s', s.step (.text observe display) = .ok s' ∧ Handled (.text observe display) s s' := by
  obtain ⟨hkeys, hkind⟩ := accepts
  obtain ⟨child, hget, htext⟩ := Node.get?_of_kind? hkeys hkind
  obtain ⟨reactions, rfl⟩ := eq_text_of_kind? htext
  obtain ⟨s', hcreate, -, hcreates⟩ := createText_spec good hget display
  refine ⟨s', by simp only [State.step, hcreate, Except.map], hcreates.good,
    hcreates.changes.observes, fun _ path _ hsends => ?_, fun view path hobserves _ =>
    hcreates.kept view (good.views view path hobserves)⟩
  cases hsends

theorem list_handled (good : s.Good) {observe : Path} {controller size : ℕ}
    {template : List (Path × String)}
    (accepts : s.Accepts (.list observe controller size template)) :
    ∃ s', s.step (.list observe controller size template) = .ok s' ∧
      Handled (.list observe controller size template) s s' := by
  obtain ⟨hkeys, hkind, hnew, hown⟩ := accepts
  obtain ⟨child, hget, hlist⟩ := Node.get?_of_kind? hkeys hkind
  obtain ⟨itemSetup, reactions, nodes, rfl⟩ := eq_list_of_kind? hlist
  have hhead : ∀ other, (s.root.modify (Node.addList controller) observe).head? other =
      if other = observe then some (.list itemSetup (reactions ++ [controller]))
      else s.root.head? other :=
    Node.head?_modify_self hget fun part rest => by cases part <;> rfl
  have hpath : s.root.head? observe = some (.list itemSetup reactions) := by
    rw [Node.head?, hget]
    rfl
  have hnot : controller ∉ reactions := fun hmem => hnew observe ⟨itemSetup, reactions, hpath, hmem⟩
  have hstep : s.step (.list observe controller size template) = .ok { s with
      root := s.root.modify (Node.addList controller) observe
      controllers := Function.update s.controllers controller ⟨size, template⟩ } := by
    simp only [State.step, findNode_of_get? hget]
  refine ⟨_, hstep, ?_⟩
  generalize hs' : ({ s with
    root := s.root.modify (Node.addList controller) observe
    controllers := Function.update s.controllers controller ⟨size, template⟩ } : State) = s'
  have hroot : s'.root = s.root.modify (Node.addList controller) observe := by rw [← hs']
  have hcount : s'.count = s.count := by rw [← hs']
  have hcontrollers : s'.controllers =
      Function.update s.controllers controller ⟨size, template⟩ := by rw [← hs']
  have hkinds (path : Path) : s'.root.kind? path = s.root.kind? path := by
    rw [hroot]
    refine s.root.kind?_modify (fun old hold rest => ?_) path
    rw [hget, Option.some.injEq] at hold
    subst hold
    rcases rest with _ | ⟨key | i, rest⟩ <;> rfl
  have hobserves (view : ViewId) (path : Path) :
      s'.Observes view path ↔ s.Observes view path := by
    unfold State.Observes
    rw [hroot, hhead]
    split
    · rename_i heq
      simp [heq, hpath]
    · rfl
  have hcontrols (other : ℕ) (path : Path) : s'.Controls other path ↔
      s.Controls other path ∨ (path = observe ∧ other = controller) := by
    unfold State.Controls
    rw [hroot, hhead]
    by_cases heq : path = observe
    · subst heq
      rw [if_pos rfl, hpath]
      simp
    · rw [if_neg heq]
      simp [heq]
  refine ⟨⟨(hkinds []).trans good.root, fun path itemSetup' reactions' hsome => ?_,
    fun view path h => hcount ▸ good.views view path ((hobserves view path).mp h),
    fun view path path' h h' => good.once view path path' ((hobserves view path).mp h)
      ((hobserves view path').mp h'), fun other path path' h h' => ?_,
    fun other path h part hpart => ?_⟩, fun view path h => (hobserves view path).mpr h,
    fun _ path _ hsends => ?_, fun _ _ _ _ => by rw [← hs']⟩
  · rw [hroot, hhead] at hsome
    split at hsome
    · obtain ⟨hrepeatable, hnodup⟩ := good.setups observe itemSetup reactions hpath
      cases hsome
      exact ⟨hrepeatable, List.nodup_append.mpr ⟨hnodup, List.nodup_singleton _,
        fun a ha b hb heq => hnot (List.mem_singleton.mp hb ▸ heq ▸ ha)⟩⟩
    · exact good.setups path itemSetup' reactions' hsome
  · rcases (hcontrols other path).mp h with hold | ⟨hpathEq, heq⟩ <;>
      rcases (hcontrols other path').mp h' with hold' | ⟨hpathEq', heq'⟩
    · exact good.single other path path' hold hold'
    · exact (hnew path (heq' ▸ hold)).elim
    · exact (hnew path' (heq ▸ hold')).elim
    · rw [hpathEq, hpathEq']
  · have hownItem {path : Path} {observe : Path} (h : s.OwnItem path observe) :
        s'.OwnItem path observe := by
      obtain ⟨hstar, rest, heq, hrest, hitem⟩ := h
      exact ⟨hstar, rest, heq, hrest, fun i => (hkinds _).trans (hitem i)⟩
    rw [hcontrollers] at hpart
    rcases (hcontrols other path).mp h with hold | ⟨rfl, rfl⟩
    · rw [Function.update_of_ne fun heq : other = controller => hnew path (heq ▸ hold)] at hpart
      exact hownItem (good.items other path hold part hpart)
    · rw [Function.update_self] at hpart
      exact hownItem (hown part hpart)
  · cases hsends

theorem step_handled (good : s.Good) : ∀ {message : Message}, s.Accepts message →
    ∃ s', s.step message = .ok s' ∧ Handled message s s'
  | .setup .., accepts => setup_handled good accepts
  | .data .., accepts => data_handled good accepts
  | .text .., accepts => text_handled good accepts
  | .list .., accepts => list_handled good accepts

/-- A state before any data, with or without views -/
structure State.Initial (s : State) : Prop where
  root : s.root = .map []

theorem State.Initial.good (h : s.Initial) : s.Good := by
  have hhead (path : Path) : s.root.head? path = none ∨ s.root.head? path = some .map := by
    rw [h.root]
    rcases path with _ | ⟨key | i, path⟩
    · exact .inr rfl
    · exact .inl rfl
    · exact .inl rfl
  have hobserves (view : ViewId) (path : Path) : ¬ s.Observes view path := by
    rintro ⟨reactions, hsome, -⟩
    rcases hhead path with heq | heq <;> rw [heq] at hsome <;> cases hsome
  have hcontrols (controller : ℕ) (path : Path) : ¬ s.Controls controller path := by
    rintro ⟨itemSetup, reactions, hsome, -⟩
    rcases hhead path with heq | heq <;> rw [heq] at hsome <;> cases hsome
  refine ⟨by rw [h.root]; rfl, fun path itemSetup reactions hsome => ?_,
    fun view path hobserved => (hobserves view path hobserved).elim,
    fun view path _ hobserved => (hobserves view path hobserved).elim,
    fun controller path _ hcontrolled => (hcontrols controller path hcontrolled).elim,
    fun controller path hcontrolled => (hcontrols controller path hcontrolled).elim⟩
  rcases hhead path with heq | heq <;> rw [heq] at hsome <;> cases hsome

theorem good_of_reached {start : State} (initial : start.Initial)
    (h : Reached State.step State.Accepts start s) : s.Good :=
  h.invariant initial.good fun good accepts hstep => by
    obtain ⟨s', heq, handled⟩ := step_handled good accepts
    rw [hstep] at heq
    exact Except.ok.inj heq ▸ handled.good

end

section

variable {s : State} {path : Path}

theorem fits_text (hkind : s.root.kind? path = some .text) (text : String) :
    s.Fits path (.text text) := by
  intro rest part hpart
  rcases rest with _ | ⟨key | i, rest⟩ <;> cases hpart
  rwa [List.append_nil]

theorem fits_keyValues {data : List (Asset × Value)} (hkind : s.root.kind? path = some .map)
    (nodup : (data.map Prod.fst).Nodup)
    (hkeys : ∀ pair ∈ data, (s.root.kind? (path ++ [.key pair.1])).isSome)
    (hdata : ∀ pair ∈ data, s.Fits (path ++ [.key pair.1]) pair.2) :
    s.Fits path (.keyValues data) := by
  intro rest part hpart
  rcases rest with _ | ⟨key | i, rest⟩
  · cases hpart
    rw [List.append_nil]
    exact ⟨hkind, nodup, hkeys⟩
  · obtain ⟨value, hvalue, hrest⟩ := Option.bind_eq_some_iff.mp hpart
    have := hdata (key, value) (mem_of_lookup hvalue) rest part hrest
    rwa [List.append_assoc, List.singleton_append] at this
  · cases hpart

theorem fits_values {data : List Value} (hkind : s.root.kind? path = some .list)
    (hsizes : ∀ controller, s.Controls controller path →
      (s.controllers controller).size ≤ data.length + 1)
    (hdata : ∀ i value, data[i]? = some value → s.Fits (path ++ [.index i]) value) :
    s.Fits path (.values data) := by
  intro rest part hpart
  rcases rest with _ | ⟨key | i, rest⟩
  · cases hpart
    rw [List.append_nil]
    exact ⟨hkind, hsizes⟩
  · cases hpart
  · obtain ⟨value, hvalue, hrest⟩ := Option.bind_eq_some_iff.mp hpart
    have := hdata i value hvalue rest part hrest
    rwa [List.append_assoc, List.singleton_append] at this

end

/-! ## A list of players -/

def noPlayers : State := ⟨.map [], fun _ => ⟨0, []⟩, fun _ => "", 0⟩

def playerSetup : Value := .keyValues [("name", .text "")]

/-- What an item of the list of players observes, and displays at first -/
def playerTemplate : List (Path × String) :=
  [([.key "players", .key "*", .key "name"], "none")]

/-- The list of players, and its controller -/
def players : State :=
  ⟨.map [("players", .list playerSetup [0] [])],
    Function.update (fun _ => ⟨0, []⟩) 0 ⟨0, playerTemplate⟩, fun _ => "", 0⟩

def twoPlayers : Value :=
  .values [.keyValues [("name", .text "A")], .keyValues [("name", .text "B")]]

theorem players_reached : Reached State.step State.Accepts noPlayers players := by
  have first : Reached State.step State.Accepts noPlayers
      { noPlayers with root := .map [("players", .list playerSetup [] [])] } :=
    .step (a := .setup "players" (.values [playerSetup])) .start
      ⟨rfl, .list (.map fun pair hmem => by
        obtain rfl := List.mem_singleton.mp hmem
        exact .text "") []⟩ rfl
  refine first.step (a := .list [.key "players"] 0 0 playerTemplate)
    ⟨fun part hmem => ⟨"players", List.mem_singleton.mp hmem⟩, rfl, ?_, ?_⟩ rfl
  · rintro path ⟨itemSetup, reactions, hhead, hmem⟩
    rcases path with _ | ⟨key | i, path⟩ <;> simp only [Node.head?, Node.get?, lookup] at hhead
    · cases hhead
    · split at hhead
      · rcases path with _ | ⟨key | i, path⟩ <;> simp [Node.get?, Node.head] at hhead
        rw [hhead.2] at hmem
        cases hmem
      · cases hhead
    · cases hhead
  · intro part hmem
    obtain rfl := List.mem_singleton.mp hmem
    refine ⟨by decide, [.key "name"], rfl, fun part hmem => ⟨"name", List.mem_singleton.mp hmem⟩,
      fun i => ?_⟩
    rfl

theorem player_fits (name : String) (i : ℕ) :
    players.Fits [.key "players", .index i] (.keyValues [("name", .text name)]) := by
  refine fits_keyValues rfl (List.nodup_singleton _) (fun pair hmem => ?_)
    fun pair hmem => ?_ <;> obtain rfl := List.mem_singleton.mp hmem
  · rfl
  · exact fits_text rfl name

theorem twoPlayers_fit {i : ℕ} {value : Value}
    (h : [Value.keyValues [("name", .text "A")], .keyValues [("name", .text "B")]][i]? =
      some value) : players.Fits [.key "players", .index i] value := by
  rcases i with _ | _ | i
  · cases h
    exact player_fits "A" 0
  · cases h
    exact player_fits "B" 1
  · cases h

theorem twoPlayers_accepted : players.Accepts (.data "players" twoPlayers) := by
  refine ⟨rfl, fits_values rfl (fun controller hcontrols => ?_) fun i value => twoPlayers_fit⟩
  obtain ⟨itemSetup, reactions, hhead, hmem⟩ := hcontrols
  cases hhead
  obtain rfl := List.mem_singleton.mp hmem
  exact Nat.zero_le _

section

variable {s : State}

example : (players.step (.data "players" twoPlayers)).map
    (fun s => (s.count, s.displays 0, s.displays 1)) = .ok (2, "A", "B") := by rfl

/-- The last text that messages send to a path -/
def lastSent : List Message → Path → Option String
  | [], _ => none
  | message :: messages, path => (lastSent messages path).or (message.sends path)

end

end Fimbulwinter.Reactions
