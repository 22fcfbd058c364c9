import Fimbulwinter.ViewRefreshing

/-! # Updating the views

What `ViewUpdater` does keeps a screen consistent: a view that changes tells its parent, which
wraps its content again and tells its own, up to the root. -/
namespace Fimbulwinter.Gui

namespace Change

/-- Some size is changed. -/
def sizes (change : Change) : Bool := change.affectsSizeH || change.affectsSizeW

theorem resizes_of_sizes {change : Change} (h : change.sizes = true) : change.resizes = true := by
  have hsplit : change.affectsSize = (change.affectsSizeH || change.affectsSizeW) := by
    simp only [affectsSize, affectsSizeH, affectsSizeW, isSet, BitVec.and_or_distrib_left]
    rw [Bool.eq_iff_iff]
    simp [bne_iff_ne, BitVec.or_eq_zero_iff, Classical.or_iff_not_imp_left]
  rw [resizes, hsplit]
  exact Bool.or_eq_true_iff.mpr (.inl h)

end Change

namespace Screen

variable {s s' t : Screen} {id : ViewId}

theorem Tree.congr (h : s.Tree) (hparents : s'.parents = s.parents)
    (hchildren : ∀ group, (s'.views group).children.Sublist (s.views group).children)
    (hcount : s'.count = s.count) : s'.Tree where
  parent_lt := by
    rw [hparents]
    exact h.parent_lt
  child := by
    intro group child hchild
    rw [hparents, hcount]
    exact h.child group child ((hchildren group).subset hchild)
  nodup group := (h.nodup group).sublist (hchildren group)

/-- A screen that is consistent but for what one view, if any, knows of its children -/
structure ConsistentBut (s : Screen) (except : Option ViewId) : Prop where
  tree : s.Tree
  covers : ∀ group, some group ≠ except → s.Covers group
  arranged : ∀ group, some group ≠ except → s.Arranged group
  pictured : s.Pictured

theorem Consistent.but (h : s.Consistent) (except : Option ViewId) : s.ConsistentBut except :=
  ⟨h.tree, fun group _ => h.covers group, fun group _ => h.arranged group, h.pictured⟩

theorem ConsistentBut.consistent (h : s.ConsistentBut none) : s.Consistent :=
  ⟨h.tree, fun group => h.covers group nofun, fun group => h.arranged group nofun, h.pictured⟩

/-- Views are told of a change below them: they have pending changes, and when one gets another
size, its children and its siblings are going to be placed. Other views stay as they are. -/
structure Told (s s' : Screen) (who : ViewId → Prop) : Prop where
  like : s.Like s'
  posts : s'.posts = s.posts
  status : ∀ other, (s'.views other).status = (s.views other).status
  offset : ∀ other, (s'.views other).offset = (s.views other).offset
  grows : ∀ other, (s.views other).change.Grows (s'.views other).change
  frame : ∀ other, ¬ who other → s'.views other = s.views other
  told : ∀ other, who other → (s'.views other).change.any = true
  sized : ∀ other, (s'.views other).size ≠ (s.views other).size →
    (s'.views other).change.resizes = true ∧
      ∀ group, other ∈ (s.views group).children → (s'.views group).change.resizes = true

/-- What `rewrap` does to the group -/
structure Rewrapped (s : Screen) (id : ViewId) (resized : Bool) (result : Screen × Change) :
    Prop where
  like : s.Like result.1
  posts : result.1.posts = s.posts
  other : ∀ other, other ≠ id → result.1.views other = s.views other
  status : (result.1.views id).status = (s.views id).status
  offset : (result.1.views id).offset = (s.views id).offset
  grows : (s.views id).change.Grows (result.1.views id).change
  data : result.2.isSet Change.data = true
  sized : (result.1.views id).size ≠ (s.views id).size → result.2.sizes = true
  resizes : resized = true → (s.views id).children ≠ [] →
    (result.1.views id).change.resizes = true ∨ result.2.resizes = true

/-- What wrapping one dimension of a group does to the group and to what its parent is told -/
structure WrapStep (view : View) (changes : Change) (resized : Bool)
    (result : View × Change) : Prop where
  like : view.Like result.1
  status : result.1.status = view.status
  offset : result.1.offset = view.offset
  grows : view.change.Grows result.1.change
  changes : changes.Grows result.2
  sized : result.1.size = view.size ∨ result.2.sizes = true
  resizes : resized = true → result.1.change.resizes = true ∨ result.2.resizes = true

theorem WrapStep.refl (view : View) (changes : Change) :
    WrapStep view changes false (view, changes) :=
  ⟨.refl _, rfl, rfl, .refl _, .refl _, .inl rfl, nofun⟩

theorem sizes_set {change : Change} {flags : BitVec 32}
    (h : (⟨flags⟩ : Change).sizes = true) : (change.set flags).sizes = true := by
  simp only [Change.sizes, Change.affectsSizeH, Change.affectsSizeW, Bool.or_eq_true,
    Change.isSet_set] at h ⊢
  exact h.imp .inr .inr

theorem rewrapH_step (s : Screen) (layout : Layout) (children : List ViewId) (view : View)
    (changes : Change) : WrapStep view changes true (s.rewrapH layout children view changes) := by
  unfold rewrapH
  dsimp only
  split_ifs
  · exact ⟨⟨rfl, rfl, rfl, rfl, rfl, rfl, rfl⟩, rfl, rfl, .refl _, Change.grows_set _ _,
      .inr (sizes_set (by decide)), fun _ => .inr (Change.resizes_set (by decide))⟩
  · exact ⟨⟨rfl, rfl, rfl, rfl, rfl, rfl, rfl⟩, rfl, rfl, Change.grows_set _ _, .refl _,
      .inl rfl, fun _ => .inl (Change.resizes_set (by decide))⟩

theorem rewrapW_step (s : Screen) (layout : Layout) (children : List ViewId) (view : View)
    (changes : Change) : WrapStep view changes true (s.rewrapW layout children view changes) := by
  unfold rewrapW
  dsimp only
  split_ifs
  · exact ⟨⟨rfl, rfl, rfl, rfl, rfl, rfl, rfl⟩, rfl, rfl, .refl _, Change.grows_set _ _,
      .inr (sizes_set (by decide)), fun _ => .inr (Change.resizes_set (by decide))⟩
  · exact ⟨⟨rfl, rfl, rfl, rfl, rfl, rfl, rfl⟩, rfl, rfl, Change.grows_set _ _, .refl _,
      .inl rfl, fun _ => .inl (Change.resizes_set (by decide))⟩

theorem sizes_grows {a b : Change} (h : a.Grows b) (ha : a.sizes = true) : b.sizes = true := by
  rcases Bool.or_eq_true_iff.mp ha with ha | ha
  · exact Bool.or_eq_true_iff.mpr (.inl (h _ ha))
  · exact Bool.or_eq_true_iff.mpr (.inr (h _ ha))

theorem WrapStep.trans {view : View} {changes : Change} {resized resized' : Bool}
    {mid last : View × Change} (h : WrapStep view changes resized mid)
    (h' : WrapStep mid.1 mid.2 resized' last) :
    WrapStep view changes (resized || resized') last where
  like := h.like.trans h'.like
  status := h'.status.trans h.status
  offset := h'.offset.trans h.offset
  grows := h.grows.trans h'.grows
  changes := h.changes.trans h'.changes
  sized := by
    rcases h.sized with hsize | hsizes
    · rcases h'.sized with hsize' | hsizes
      · exact .inl (hsize'.trans hsize)
      · exact .inr hsizes
    · exact .inr (sizes_grows h'.changes hsizes)
  resizes := by
    intro hresized
    rcases Bool.or_eq_true_iff.mp hresized with hresized | hresized
    · exact (h.resizes hresized).imp h'.grows.resizes h'.changes.resizes
    · exact h'.resizes hresized

theorem isSet_data : (⟨Change.data⟩ : Change).isSet Change.data = true := by decide

theorem WrapStep.rewrapped {resized : Bool} {result : View × Change}
    (step : WrapStep (s.views id) ⟨Change.data⟩ resized result) :
    Rewrapped s id resized (s.modify id fun _ => result.1, result.2) where
  like := by
    dsimp only
    exact .modify step.like
  posts := rfl
  other _ hne := by
    dsimp only
    rw [modify_other _ _ hne]
  status := by
    rw [modify_same]
    exact step.status
  offset := by
    rw [modify_same]
    exact step.offset
  grows := by
    rw [modify_same]
    exact step.grows
  data := step.changes _ isSet_data
  sized := by
    rw [modify_same]
    exact step.sized.resolve_left
  resizes := by
    rw [modify_same]
    exact fun hresized _ => step.resizes hresized

theorem rewrap_rewrapped (s : Screen) (id : ViewId) (height width : Bool) :
    Rewrapped s id (height || width) (s.rewrap id height width) := by
  unfold rewrap
  cases hcontent : (s.views id).content with
  | group layout children =>
    have hH : WrapStep (s.views id) ⟨Change.data⟩ height
        (if height then s.rewrapH layout children (s.views id) ⟨Change.data⟩
          else (s.views id, ⟨Change.data⟩)) := by
      cases height
      · exact .refl _ _
      · exact rewrapH_step ..
    have hW (changed : View × Change) : WrapStep changed.1 changed.2 width
        (if width then s.rewrapW layout children changed.1 changed.2 else changed) := by
      cases width
      · exact .refl _ _
      · exact rewrapW_step ..
    exact (hH.trans (hW _)).rewrapped
  | color _ | text _ _ | texture _ =>
    exact ⟨.refl s, rfl, fun _ _ => rfl, rfl, rfl, .refl _, isSet_data, fun h => absurd rfl h,
      fun _ h => absurd (by simp [View.children, hcontent]) h⟩

theorem setChange_like (view : View) (flags : BitVec 32) : view.Like (view.setChange flags) :=
  ⟨rfl, rfl, rfl, rfl, rfl, rfl, rfl⟩

/-- A group is wrapped again, what is above it is told, and then it notes its own change. -/
theorem Rewrapped.told (tree : s.Tree) {resized : Bool} {result : Screen × Change}
    (h : Rewrapped s id resized result)
    (told : result.1.Told s' fun other => Above s.parents other id)
    (group : result.2.sizes = true → ∀ group, id ∈ (s.views group).children →
      (s'.views group).change.resizes = true) :
    s.Told (s'.modify id (·.setChange result.2.flags))
        (fun other => other = id ∨ Above s.parents other id) ∧
      (resized = true → (s.views id).children ≠ [] →
        ((s'.modify id (·.setChange result.2.flags)).views id).change.resizes = true) := by
  have hid : s'.views id = result.1.views id :=
    told.frame id fun habove => Nat.lt_irrefl id (tree.above_lt habove)
  have grows : ∀ other, (s'.views other).change.Grows
      ((s'.modify id (·.setChange result.2.flags)).views other).change :=
    modify_forall (p := fun other view => (s'.views other).change.Grows view.change)
      (fun _ _ => .refl _) (Change.grows_set _ _)
  have place : ∀ other,
      ((s'.modify id (·.setChange result.2.flags)).views other).size = (s'.views other).size :=
    modify_forall (p := fun other view => view.size = (s'.views other).size)
      (fun _ _ => rfl) rfl
  refine ⟨⟨(h.like.trans told.like).trans (.modify (setChange_like _ _)), ?_, ?_, ?_, ?_, ?_, ?_,
    ?_⟩, ?_⟩
  · rw [modify_posts, told.posts, h.posts]
  · refine modify_forall (p := fun other view => view.status = (s.views other).status)
      (fun other hne => ?_) ?_
    · rw [told.status, h.other other hne]
    · rw [hid]
      exact h.status
  · refine modify_forall (p := fun other view => view.offset = (s.views other).offset)
      (fun other hne => ?_) ?_
    · rw [told.offset, h.other other hne]
    · rw [hid]
      exact h.offset
  · intro other
    refine Change.Grows.trans ?_ (grows other)
    by_cases heq : other = id
    · subst heq
      exact h.grows.trans (told.grows other)
    · have := told.grows other
      rwa [h.other other heq] at this
  · intro other hother
    obtain ⟨hne, hnot⟩ := not_or.mp hother
    rw [modify_other _ _ hne, told.frame other hnot, h.other other hne]
  · rintro other (heq | habove)
    · rw [heq, modify_same, View.setChange, Change.any_set, Bool.or_eq_true]
      exact .inr (Change.any_of_isSet h.data)
    · exact (grows other).any (told.told other habove)
  · intro other hsize
    rw [place] at hsize
    by_cases heq : other = id
    · subst heq
      rw [hid] at hsize
      have hsizes := h.sized hsize
      refine ⟨?_, fun g hg => (grows g).resizes (group hsizes g hg)⟩
      rw [modify_same]
      exact Change.resizes_set (Change.resizes_of_sizes hsizes)
    · rw [← h.other other heq] at hsize
      obtain ⟨hresizes, hgroup⟩ := told.sized other hsize
      refine ⟨(grows other).resizes hresizes, fun g hg => (grows g).resizes (hgroup g ?_)⟩
      rwa [(h.like.views g).children]
  · intro hresized hchildren
    rw [modify_same, hid]
    rcases h.resizes hresized hchildren with hresizes | hresizes
    · exact (Change.grows_set _ _).resizes hresizes
    · exact Change.resizes_set hresizes

/-- `ViewUpdater::parent` tells everything above a view. -/
theorem parent_told (fuel : ℕ) (tree : s.Tree) (hfuel : id < fuel) (changes : Change) :
    s.Told (s.parent fuel id changes) (fun other => Above s.parents other id) ∧
      (changes.sizes = true → ∀ group, s.parents id = some group →
        (s.views group).children ≠ [] →
        ((s.parent fuel id changes).views group).change.resizes = true) := by
  induction fuel generalizing s id changes with
  | zero => exact absurd hfuel (Nat.not_lt_zero id)
  | succ fuel ih =>
    cases hparent : (s.views id).parent with
    | none =>
      have heq : s.parent (fuel + 1) id changes = s := by simp only [Screen.parent, hparent]
      rw [heq]
      refine ⟨⟨.refl s, rfl, fun _ => rfl, fun _ => rfl, fun _ => .refl _, fun _ _ => rfl, ?_,
        fun _ h => absurd rfl h⟩, ?_⟩
      · intro other habove
        cases habove with
        | single h => simp [parents, hparent] at h
        | tail _ h => simp [parents, hparent] at h
      · intro _ group hgroup
        simp [parents, hparent] at hgroup
    | some group =>
      have hlt : group < id := tree.parent_lt id group hparent
      have hrewrapped := rewrap_rewrapped s group changes.affectsSizeH changes.affectsSizeW
      have htree : (s.rewrap group changes.affectsSizeH changes.affectsSizeW).1.Tree :=
        tree.of_like hrewrapped.like
      obtain ⟨htold, hgroup⟩ := ih htree (Nat.lt_of_lt_of_le hlt (Nat.le_of_lt_succ hfuel))
        (s.rewrap group changes.affectsSizeH changes.affectsSizeW).2
      rw [hrewrapped.like.parents] at htold
      obtain ⟨htold, hresizes⟩ := hrewrapped.told tree htold fun hsizes g hg => by
        refine hgroup hsizes g ?_ ?_
        · rw [hrewrapped.like.parents]
          exact (tree.child g group hg).1
        · rw [(hrewrapped.like.views g).children]
          exact List.ne_nil_of_mem hg
      have heq : s.parent (fuel + 1) id changes =
          ((s.rewrap group changes.affectsSizeH changes.affectsSizeW).1.parent fuel group
            (s.rewrap group changes.affectsSizeH changes.affectsSizeW).2).modify group
            (·.setChange (s.rewrap group changes.affectsSizeH changes.affectsSizeW).2.flags) := by
        simp only [Screen.parent, hparent]
      rw [← heq] at htold hresizes
      have hwho : (fun other => other = group ∨ Above s.parents other group) =
          fun other => Above s.parents other id := by
        funext other
        refine propext ⟨?_, above_child hparent⟩
        rintro (rfl | habove)
        · exact .single hparent
        · exact habove.tail hparent
      rw [hwho] at htold
      refine ⟨htold, fun hsizes g hparent' hchildren => ?_⟩
      rw [parents, hparent] at hparent'
      obtain rfl := Option.some.inj hparent'
      exact hresizes hsizes hchildren

/-- When what is above a change is told, the screen is consistent again. -/
theorem ConsistentBut.told {except : Option ViewId} {who : ViewId → Prop}
    (h : s.ConsistentBut except) (told : s.Told s' who)
    (closed : ∀ group child, who child → s.parents child = some group → who group)
    (hwho : ∀ group, except = some group → who group)
    (arranged : ∀ group, except = some group → (s.views group).children ≠ [] →
      (s'.views group).change.resizes = true ∨ s.Arranged group) : s'.Consistent where
  tree := h.tree.of_like told.like
  covers := by
    intro group child hchild hany
    rw [(told.like.views group).children] at hchild
    by_cases hgroup : who group
    · exact told.told group hgroup
    · have hnot : ¬ who child := fun hwhoChild =>
        hgroup (closed group child hwhoChild (h.tree.child group child hchild).1)
      rw [told.frame child hnot] at hany
      have hne : some group ≠ except := fun heq => hgroup (hwho group heq.symm)
      exact (told.grows group).any (h.covers group hne child hchild hany)
  arranged := by
    intro group
    have harranged : (s'.views group).change.resizes = true ∨ s.Arranged group := by
      by_cases hne : some group = except
      · by_cases hchildren : (s.views group).children = []
        · exact .inr (.inr (placed_of_children_nil hchildren))
        · exact arranged group hne.symm hchildren
      · exact .inr (h.arranged group hne)
    rcases harranged with hresizes | hresizes | hplaced
    · exact .inl hresizes
    · exact .inl ((told.grows group).resizes hresizes)
    · by_cases hresizes : (s'.views group).change.resizes = true
      · exact .inl hresizes
      · have hsize (other : ViewId) (himp : (s'.views other).size ≠ (s.views other).size →
            (s'.views group).change.resizes = true) :
            (s'.views other).size = (s.views other).size :=
          Classical.byContradiction fun hne => hresizes (himp hne)
        refine .inr (hplaced.congr (told.like.views group).content
          ⟨told.offset group, hsize group fun hne => (told.sized group hne).1⟩ fun child hchild =>
            (told.like.views child).rests ⟨told.offset child, ?_⟩)
        exact hsize child fun hne => (told.sized child hne).2 group hchild
  pictured := by
    refine h.pictured.of_noted told.posts fun other => ⟨by rw [told.status],
      (told.like.views other).selectable, (told.like.views other).drawn_isSome, fun hclean => ?_⟩
    have hsize : (s'.views other).size = (s.views other).size := by
      by_contra hne
      rw [Change.any_of_resizes (told.sized other hne).1] at hclean
      cases hclean
    refine ⟨?_, (told.like.views other).drawn (told.offset other) hsize (by rw [told.status])⟩
    cases hany : (s.views other).change.any with
    | false => rfl
    | true => rw [(told.grows other).any hany] at hclean; cases hclean

/-- Telling the parent of a view that changed makes the screen consistent. -/
theorem ConsistentBut.parent (h : s.ConsistentBut (s.parents id)) (hlt : id < s.count)
    (changes : Change) (arranged : ∀ group, s.parents id = some group →
      changes.sizes = true ∨ s.Arranged group) :
    (s.parent s.count id changes).Consistent := by
  obtain ⟨told, hresizes⟩ := parent_told s.count h.tree hlt changes
  refine h.told told (fun group child habove hparent => .head hparent habove)
    (fun group hparent => .single hparent) fun group hparent hchildren => ?_
  rcases arranged group hparent with hsizes | harranged
  · exact .inl (hresizes hsizes group hparent hchildren)
  · exact .inr harranged

/-! ## Views and groups that change -/

/-- A view without children changes, as its parent is going to find out. -/
theorem ConsistentBut.modifyLeaf {except : Option ViewId} (h : s.ConsistentBut except)
    {f : View → View} (before : (s.views id).children = [])
    (after : (f (s.views id)).children = []) (parent : (f (s.views id)).parent = s.parents id)
    (noted : (s.views id).Noted (f (s.views id)))
    (hexcept : ∀ group, s.parents id = some group →
      some group = except ∨ (s.views group).change.resizes = true) :
    (s.modify id f).ConsistentBut except := by
  have children : ∀ other, ((s.modify id f).views other).children = (s.views other).children :=
    modify_forall (p := fun other view => view.children = (s.views other).children)
      (fun _ _ => rfl) (by rw [after, before])
  have hparents : (s.modify id f).parents = s.parents := funext <|
    modify_forall (p := fun other view => view.parent = s.parents other) (fun _ _ => rfl) parent
  refine ⟨h.tree.congr hparents (fun group => by simp only [children group, List.Sublist.refl]) rfl, ?_, ?_,
    h.pictured.of_noted rfl (modify_forall (p := fun other view => (s.views other).Noted view)
      (fun _ _ => .refl _) noted)⟩
  · intro group hne child hchild hany
    rw [children] at hchild
    have hgroup : group ≠ id := by
      rintro rfl
      simp [before] at hchild
    rw [modify_other _ _ hgroup]
    by_cases heq : child = id
    · subst heq
      have := (hexcept group (h.tree.child group child hchild).1).resolve_left hne
      exact Change.any_of_resizes this
    · rw [modify_other _ _ heq] at hany
      exact h.covers group hne child hchild hany
  · intro group hne
    by_cases hgroup : group = id
    · subst hgroup
      exact .inr (placed_of_children_nil (by rw [children, before]))
    · rw [Arranged, modify_other _ _ hgroup]
      by_cases hresizes : (s.views group).change.resizes = true
      · exact .inl hresizes
      · refine .inr (((h.arranged group hne).resolve_left hresizes).congr
          (by rw [modify_other _ _ hgroup]) (by rw [modify_other _ _ hgroup]; exact ⟨rfl, rfl⟩)
          fun child hchild => ?_)
        have heq : child ≠ id := by
          rintro rfl
          exact ((hexcept group (h.tree.child group child hchild).1).resolve_left hne
            |> hresizes).elim
        rw [modify_other _ _ heq]
        exact .refl _

theorem regroup_parent (view : View) (f : List ViewId → List ViewId) :
    (view.regroup f).parent = view.parent := by
  unfold View.regroup
  split <;> rfl

theorem regroup_change (view : View) (f : List ViewId → List ViewId) :
    (view.regroup f).change = view.change := by
  unfold View.regroup
  split <;> rfl

theorem regroup_rests (view : View) (f : List ViewId → List ViewId) :
    view.Rests (view.regroup f) := by
  unfold View.regroup
  split <;> exact ⟨rfl, rfl, rfl, rfl⟩

theorem regroup_noted (view : View) (f : List ViewId → List ViewId) :
    view.Noted (view.regroup f) := by
  unfold View.regroup
  split
  · rename_i hcontent
    exact ⟨rfl, rfl, by simp [View.drawn, hcontent], fun hclean =>
      ⟨hclean, by simp [View.drawn, hcontent]⟩⟩
  · exact .refl view

/-- A group gets other children, as it is going to find out. -/
theorem ConsistentBut.regroup {except : Option ViewId} (h : s.ConsistentBut except)
    {group : ViewId} (f : List ViewId → List ViewId) (tree : (s.modify group (·.regroup f)).Tree)
    (hexcept : some group = except ∨ (s.views group).change.resizes = true) :
    (s.modify group (·.regroup f)).ConsistentBut except := by
  have rests : ∀ other, (s.views other).Rests ((s.modify group (·.regroup f)).views other) :=
    modify_forall (p := fun other view => (s.views other).Rests view) (fun _ _ => .refl _)
      (regroup_rests _ f)
  have change : ∀ other, ((s.modify group (·.regroup f)).views other).change =
      (s.views other).change :=
    modify_forall (p := fun other view => view.change = (s.views other).change)
      (fun _ _ => rfl) (regroup_change _ f)
  refine ⟨tree, ?_, ?_, h.pictured.of_noted rfl (modify_forall
    (p := fun other view => (s.views other).Noted view) (fun _ _ => .refl _) (regroup_noted _ f))⟩
  · intro other hne child hchild hany
    rw [change] at hany ⊢
    by_cases heq : other = group
    · subst heq
      exact Change.any_of_resizes (hexcept.resolve_left hne)
    · rw [modify_other _ _ heq] at hchild
      exact h.covers other hne child hchild hany
  · intro other hne
    by_cases heq : other = group
    · subst heq
      rw [Arranged, change]
      exact .inl (hexcept.resolve_left hne)
    · rcases h.arranged other hne with hresizes | hplaced
      · rw [Arranged, change]
        exact .inl hresizes
      · exact .inr (hplaced.congr (by rw [modify_other _ _ heq])
          ⟨(rests other).offset, (rests other).size⟩ fun child _ => rests child)

/-- What a visit of views and all that is reached from them does: they are dirty, they have the
property that the visit gives them, and the others stay as they are. -/
structure Visited (property : View → Prop) (s s' : Screen) (ids : List ViewId) : Prop where
  like : s.Like s'
  place : ∀ other, (s'.views other).offset = (s.views other).offset ∧
    (s'.views other).size = (s.views other).size
  grows : ∀ other, (s.views other).change.Grows (s'.views other).change
  rendered : ∀ other, (s'.views other).status.rendered = true →
    (s.views other).status.rendered = true
  kept : ∀ other, property (s.views other) → property (s'.views other)
  pictured : s.Pictured → s'.Pictured
  frame : ∀ other, (∀ id ∈ ids, ¬ s.Reach id other) → s'.views other = s.views other
  dirty : ∀ id ∈ ids, ∀ other, s.Reach id other → (s'.views other).change.any = true ∧
    property (s'.views other)

theorem Visited.nil (property : View → Prop) (s : Screen) : Visited property s s [] :=
  ⟨.refl s, fun _ => ⟨rfl, rfl⟩, fun _ => .refl _, fun _ h => h, fun _ h => h, fun h => h,
    fun _ _ => rfl, by simp⟩

theorem Visited.append {property : View → Prop} {ids ids' : List ViewId}
    (h : Visited property s s' ids) (h' : Visited property s' t ids') :
    Visited property s t (ids ++ ids') where
  like := h.like.trans h'.like
  place other := ⟨(h'.place other).1.trans (h.place other).1,
    (h'.place other).2.trans (h.place other).2⟩
  grows other := (h.grows other).trans (h'.grows other)
  rendered other hother := h.rendered other (h'.rendered other hother)
  kept other hother := h'.kept other (h.kept other hother)
  pictured hs := h'.pictured (h.pictured hs)
  frame := by
    intro other hother
    rw [h'.frame other fun id hid => by
        rw [h.like.reach]
        exact hother id (List.mem_append_right _ hid),
      h.frame other fun id hid => hother id (List.mem_append_left _ hid)]
  dirty := by
    intro id hid other hreach
    rcases List.mem_append.mp hid with hid | hid
    · obtain ⟨hany, hproperty⟩ := h.dirty id hid other hreach
      exact ⟨(h'.grows other).any hany, h'.kept other hproperty⟩
    · exact h'.dirty id hid other (by rwa [h.like.reach])

/-- What the function of a visit does to a view -/
structure Touches (property : View → Prop) (s s' : Screen) (id : ViewId) : Prop where
  like : s.Like s'
  place : ∀ other, (s'.views other).offset = (s.views other).offset ∧
    (s'.views other).size = (s.views other).size
  grows : ∀ other, (s.views other).change.Grows (s'.views other).change
  rendered : ∀ other, (s'.views other).status.rendered = true →
    (s.views other).status.rendered = true
  kept : ∀ other, property (s.views other) → property (s'.views other)
  pictured : s.Pictured → s'.Pictured
  other : ∀ other, other ≠ id → s'.views other = s.views other
  dirty : (s'.views id).change.any = true ∧ property (s'.views id)

/-- `ChildUpdater` visits everything that is reached. -/
theorem visit_visited {property : View → Prop} {f : Screen → ViewId → Screen}
    (hf : ∀ s id, Touches property s (f s id) id) (fuel : ℕ) (tree : s.Tree) (hlt : id < s.count)
    (hfuel : s.count ≤ fuel + id) : Visited property s (s.visit f fuel id) [id] := by
  induction fuel generalizing s id with
  | zero => exact absurd hlt (by simpa using hfuel)
  | succ fuel ih =>
    have touches := hf s id
    have hchildren : ∀ (t : Screen) (children : List ViewId), t.Tree → t.count = s.count →
        (∀ child ∈ children, child ∈ (s.views id).children) →
        Visited property t (children.foldl (visit f fuel) t) children := by
      intro t children htree hcount
      induction children generalizing t with
      | nil => exact fun _ => .nil _ t
      | cons child children ih' =>
        intro hin
        have hmem := hin child (List.mem_cons_self ..)
        have hle : fuel + 1 + id ≤ fuel + child := by
          rw [Nat.add_assoc, Nat.add_comm 1]
          exact Nat.add_le_add_left (tree.child_lt hmem) fuel
        have hvisited := ih htree (hcount ▸ (tree.child id child hmem).2)
          (hcount ▸ Nat.le_trans hfuel hle)
        exact hvisited.append (ih' _ (htree.of_like hvisited.like)
          (hvisited.like.count.trans hcount)
          fun sibling hsibling => hin sibling (List.mem_cons_of_mem _ hsibling))
    have hrest := hchildren (f s id) (s.views id).children (tree.of_like touches.like)
      touches.like.count fun _ h => h
    refine ⟨touches.like.trans hrest.like, fun other => ?_,
      fun other => (touches.grows other).trans (hrest.grows other),
      fun other h => touches.rendered other (hrest.rendered other h),
      fun other h => hrest.kept other (touches.kept other h),
      fun h => hrest.pictured (touches.pictured h), ?_, ?_⟩
    · exact ⟨(hrest.place other).1.trans (touches.place other).1,
        (hrest.place other).2.trans (touches.place other).2⟩
    · intro other hother
      have hnot := hother id (List.mem_singleton_self id)
      have hne : other ≠ id := fun heq => hnot (heq ▸ .refl)
      refine (hrest.frame other fun child hchild hreach => hnot ?_).trans
        (touches.other other hne)
      rw [touches.like.reach] at hreach
      exact .head hchild hreach
    · intro view hview other hreach
      rw [List.mem_singleton.mp hview] at hreach
      rcases Relation.ReflTransGen.cases_head hreach with heq | ⟨child, hchild, hreach⟩
      · subst heq
        exact ⟨(hrest.grows id).any touches.dirty.1, hrest.kept id touches.dirty.2⟩
      · exact hrest.dirty child hchild other (by rwa [touches.like.reach])

/-- After a visit, only the parent of the visited view need not know. -/
theorem Visited.consistentBut {property : View → Prop} (h : Visited property s s' [id])
    (hs : s.Consistent) : s'.ConsistentBut (s.parents id) ∧ ∀ group, s'.Arranged group := by
  have arranged : ∀ group, s'.Arranged group := by
    intro group
    rcases hs.arranged group with hresizes | hplaced
    · exact .inl ((h.grows group).resizes hresizes)
    · exact .inr (hplaced.congr (h.like.views group).content (h.place group)
        fun child _ => (h.like.views child).rests (h.place child))
  refine ⟨⟨hs.tree.of_like h.like, ?_, fun group _ => arranged group, h.pictured hs.pictured⟩,
    arranged⟩
  intro group hne child hchild hany
  rw [(h.like.views group).children] at hchild
  by_cases hreach : s.Reach id child
  · have hgroup : s.Reach id group := by
      rcases Relation.ReflTransGen.cases_tail hreach with heq | ⟨other, hreach, hother⟩
      · subst heq
        exact absurd (hs.tree.child group child hchild).1.symm hne
      · have hparent := (hs.tree.child group child hchild).1
        rw [(hs.tree.child other child hother).1] at hparent
        rwa [← Option.some.inj hparent]
    exact (h.dirty id (List.mem_singleton_self id) group hgroup).1
  · rw [h.frame child (by simpa using hreach)] at hany
    exact (h.grows group).any (hs.covers group child hchild hany)

/-! ## Messages -/

/-- A view gets changes that only its parent may have to find out. -/
theorem Consistent.modifyNoted (h : s.Consistent) (id : ViewId) (except : Option ViewId)
    {f : View → View}
    (like : (s.views id).Like (f (s.views id)))
    (place : (f (s.views id)).offset = (s.views id).offset ∧
      (f (s.views id)).size = (s.views id).size)
    (grows : (s.views id).change.Grows (f (s.views id)).change)
    (noted : (s.views id).Noted (f (s.views id)))
    (hexcept : ∀ group, s.parents id = some group → some group = except ∨
      (s.views group).change.any = true ∨ (f (s.views id)).change = (s.views id).change) :
    (s.modify id f).ConsistentBut except := by
  have hlike : s.Like (s.modify id f) := .modify like
  have hgrows : ∀ other, (s.views other).change.Grows ((s.modify id f).views other).change :=
    modify_forall (p := fun other view => (s.views other).change.Grows view.change)
      (fun _ _ => .refl _) grows
  have hplace : ∀ other, ((s.modify id f).views other).offset = (s.views other).offset ∧
      ((s.modify id f).views other).size = (s.views other).size :=
    modify_forall (p := fun other view => view.offset = (s.views other).offset ∧
      view.size = (s.views other).size) (fun _ _ => ⟨rfl, rfl⟩) place
  refine ⟨h.tree.of_like hlike, ?_, ?_, h.pictured.of_noted rfl (modify_forall
    (p := fun other view => (s.views other).Noted view) (fun _ _ => .refl _) noted)⟩
  · intro group hne child hchild hany
    rw [(hlike.views group).children] at hchild
    by_cases heq : child = id
    · subst heq
      rw [modify_same] at hany
      rcases (hexcept group (h.tree.child group child hchild).1).resolve_left hne with hgroup | hsame
      · exact (hgrows group).any hgroup
      · rw [hsame] at hany
        exact (hgrows group).any (h.covers group child hchild hany)
    · rw [modify_other _ _ heq] at hany
      exact (hgrows group).any (h.covers group child hchild hany)
  · intro group _
    rcases h.arranged group with hresizes | hplaced
    · exact .inl ((hgrows group).resizes hresizes)
    · exact .inr (hplaced.congr (hlike.views group).content (hplace group)
        fun child _ => (hlike.views child).rests (hplace child))

theorem wrapTextH_step (view : View) (changes : Change) :
    WrapStep view changes false (wrapTextH view changes) := by
  unfold wrapTextH
  split_ifs
  · exact ⟨⟨rfl, rfl, rfl, rfl, rfl, rfl, rfl⟩, rfl, rfl, .refl _, Change.grows_set _ _,
      .inr (sizes_set (by decide)), nofun⟩
  · exact .refl _ _

theorem wrapTextW_step (display : List UInt8) (view : View) (changes : Change) :
    WrapStep view changes false (wrapTextW display view changes) := by
  unfold wrapTextW
  dsimp only
  split_ifs
  · exact ⟨⟨rfl, rfl, rfl, rfl, rfl, rfl, rfl⟩, rfl, rfl, .refl _, Change.grows_set _ _,
      .inr (sizes_set (by decide)), nofun⟩
  · exact .refl _ _

/-- What `update` does to a text -/
theorem updateText_eq (s : Screen) (id : ViewId) (display : List UInt8) :
    ∃ view, (s.updateText id display).1 = s.modify id (fun _ => view) ∧
      (s.views id).Like view ∧ view.status = (s.views id).status ∧
      view.offset = (s.views id).offset ∧ view.change.any = true ∧
      (view.size = (s.views id).size ∨ (s.updateText id display).2.sizes = true) ∧
      (s.views id).change.Grows view.change := by
  have step := (wrapTextH_step (s.views id) ⟨Change.data⟩).trans (wrapTextW_step display _ _)
  refine ⟨_, rfl, step.like.trans (setChange_like _ _), step.status, step.offset, ?_, step.sized,
    step.grows.trans (Change.grows_set _ _)⟩
  rw [View.setChange, Change.any_set, Bool.or_eq_true]
  exact .inr (Change.any_of_isSet (step.changes _ isSet_data))

theorem Consistent.reactText (h : s.Consistent) (hlt : id < s.count) {display : List UInt8}
    {before : List UInt8} {color : Option Color}
    (hcontent : (s.views id).content = .text before color) :
    (s.reactText id display).Consistent := by
  simp only [Screen.reactText, hcontent]
  obtain ⟨view, heq, like, status, offset, hany, hsize, -⟩ := updateText_eq
    (s.modify id fun view => { view with content := .text display color }) id display
  rw [modify_same] at like status offset hsize
  rw [modify_modify] at heq
  have hbut : (s.modify id fun _ => view).ConsistentBut (s.parents id) := by
    refine (h.but _).modifyLeaf (by simp [View.children, hcontent]) ?_ like.parent ?_
      fun group hgroup => .inl hgroup.symm
    · rw [View.children, like.content]
    · refine ⟨by rw [status], like.selectable, ?_, fun hclean => ?_⟩
      · rw [like.drawn_isSome]
        simp [View.drawn, hcontent]
      · rw [hany] at hclean
        cases hclean
  have hparents : (s.modify id fun _ => view).parents = s.parents := funext <|
    modify_forall (p := fun other view => view.parent = s.parents other) (fun _ _ => rfl)
      like.parent
  rw [heq]
  rw [← congrFun hparents id] at hbut
  refine hbut.parent hlt _ fun group hgroup => ?_
  rcases hsize with hsize | hsizes
  · refine .inr ?_
    rw [hparents] at hgroup
    have hne : group ≠ id := Nat.ne_of_lt (h.tree.parent_lt id group hgroup)
    rw [Arranged, modify_other _ _ hne]
    refine (h.arranged group).imp_right fun hplaced => hplaced.congr
      (by rw [modify_other _ _ hne]) (by rw [modify_other _ _ hne]; exact ⟨rfl, rfl⟩)
      fun child _ => ?_
    exact modify_forall (p := fun other view => (s.views other).Rests view) (fun _ _ => .refl _)
      ⟨like.gravity, like.margin, offset, hsize⟩ child
  · exact .inl hsizes

theorem restate_touches (state : State) (s : Screen) (id : ViewId) :
    Touches (fun view => view.status.state = state) s (s.restate state id) id := by
  have noted : (s.views id).Noted { s.views id with
      status := { (s.views id).status with state }
      change := (s.views id).change.set Change.data } := by
    refine ⟨rfl, rfl, ?_, fun hclean => ?_⟩
    · unfold View.drawn
      cases (s.views id).content <;> rfl
    · rw [Change.any_set, Bool.or_eq_false_iff] at hclean
      exact absurd hclean.2 (by decide)
  refine ⟨.modify ⟨rfl, rfl, rfl, rfl, rfl, rfl, rfl⟩,
    modify_forall (p := fun other view => view.offset = (s.views other).offset ∧
      view.size = (s.views other).size) (fun _ _ => ⟨rfl, rfl⟩) ⟨rfl, rfl⟩,
    modify_forall (p := fun other view => (s.views other).change.Grows view.change)
      (fun _ _ => .refl _) (Change.grows_set _ _),
    modify_forall (p := fun other view => view.status.rendered = true →
      (s.views other).status.rendered = true) (fun _ _ h => h) (fun h => h),
    modify_forall (p := fun other view => (s.views other).status.state = state →
      view.status.state = state) (fun _ _ h => h) (fun _ => rfl),
    fun h => h.of_noted rfl (modify_forall
      (p := fun other view => (s.views other).Noted view) (fun _ _ => .refl _) noted),
    fun _ hne => modify_other _ _ hne, ?_⟩
  rw [restate, modify_same]
  refine ⟨?_, rfl⟩
  rw [Change.any_set, Bool.or_eq_true]
  exact .inr (by decide)

theorem Consistent.status (h : s.Consistent) (hlt : id < s.count) (state : State) :
    (s.status id state).Consistent := by
  have hvisited := visit_visited (restate_touches state) s.count h.tree hlt
    (Nat.le_add_right _ _)
  obtain ⟨hbut, harranged⟩ := hvisited.consistentBut h
  rw [← hvisited.like.parents] at hbut
  have hlt' : id < (s.visit (restate state) s.count id).count := by
    rw [hvisited.like.count]
    exact hlt
  exact hbut.parent hlt' _ fun group _ => .inr (harranged group)

/-- The renderer is told to forget a view that it holds, if it does. -/
theorem Pictured.remove (h : s.Pictured) :
    ((s.remove id).modify id (·.setChange Change.data)).Pictured := by
  have hany : ∀ view : View, (view.setChange Change.data).change.any = true := fun view => by
    rw [View.setChange, Change.any_set, Bool.or_eq_true]
    exact .inr (by decide)
  have hdrawn : ∀ (view : View) (status : Status) (change : Change),
      ({ view with status, change } : View).drawn.isSome = view.drawn.isSome := by
    intro view status change
    unfold View.drawn
    cases view.content <;> rfl
  cases hrendered : (s.views id).status.rendered with
  | false =>
    simp only [Screen.remove, hrendered, Bool.false_eq_true, if_false]
    refine h.of_noted rfl (modify_forall (p := fun other view => (s.views other).Noted view)
      (fun _ _ => .refl _) ⟨rfl, rfl, hdrawn _ _ _, fun hclean => ?_⟩)
    rw [hany] at hclean
    cases hclean
  | true =>
    obtain ⟨picture, hreplay, hshown⟩ := h
    simp only [Screen.remove, hrendered, if_true]
    have hsome : (picture id).isSome := by rw [← (hshown id).rendered, hrendered]
    obtain ⟨entry, hentry⟩ := Option.isSome_iff_exists.mp hsome
    refine ⟨Function.update picture id none, ?_, ?_⟩
    · simp only [modify_posts, post, Picture.replay_append, hreplay, Option.bind_some]
      simp [Picture.handle, hentry]
    · refine modify_forall (p := fun other view =>
        view.Shown (Function.update picture id none other)) (fun other hne => ?_) ?_
      · rw [Function.update_of_ne hne, post_views, modify_other _ _ hne]
        exact hshown other
      · rw [Function.update_self, post_views, modify_same]
        exact ⟨rfl, by simp, fun _ _ => hany _⟩

theorem unrender_touches (s : Screen) (id : ViewId) :
    Touches (fun view => view.drawn.isSome → view.status.rendered = false) s (s.unrender id)
      id := by
  have hany : ∀ view : View, (view.setChange Change.data).change.any = true := fun view => by
    rw [View.setChange, Change.any_set, Bool.or_eq_true]
    exact .inr (by decide)
  -- the view is marked, and unless it is a group it is not rendered any more
  have key : ∃ status : Status, (∀ other, (s.unrender id).views other =
        (s.modify id fun view => { view with status, change := view.change.set Change.data }).views
          other) ∧ (s.unrender id).count = s.count ∧
      (status.rendered = true → (s.views id).status.rendered = true) ∧
      ((s.views id).drawn.isSome → status.rendered = false) ∧
      (s.Pictured → (s.unrender id).Pictured) := by
    unfold unrender
    cases hcontent : (s.views id).content with
    | group layout children =>
      refine ⟨(s.views id).status, fun _ => rfl, rfl, fun h => h,
        by simp [View.drawn, hcontent], fun h => ?_⟩
      refine h.of_noted rfl (modify_forall (p := fun other view => (s.views other).Noted view)
        (fun _ _ => .refl _) ⟨rfl, rfl, by simp [View.drawn, View.setChange, hcontent],
          fun hclean => ?_⟩)
      rw [hany] at hclean
      cases hclean
    | color _ | text _ _ | texture _ =>
      refine ⟨{ (s.views id).status with rendered := false }, fun other => ?_, ?_,
        fun h => Bool.noConfusion h, fun _ => rfl, Pictured.remove⟩
      · cases hrendered : (s.views id).status.rendered with
        | false =>
          have hstatus : { (s.views id).status with rendered := false } = (s.views id).status := by
            rw [← hrendered]
          simp only [remove, hrendered, Bool.false_eq_true, if_false, hstatus]
          rfl
        | true =>
          simp only [remove, hrendered, if_true]
          by_cases hne : other = id
          · subst hne
            simp only [modify_same, post_views]
            rfl
          · rw [modify_other _ _ hne, modify_other _ _ hne, post_views, modify_other _ _ hne]
      · cases hrendered : (s.views id).status.rendered <;> simp [remove, hrendered]
  obtain ⟨status, heq, hcount, hrendered, hdrawn, hpictured⟩ := key
  have views {p : ViewId → View → Prop} (h : ∀ other, p other (s.views other))
      (hid : p id { s.views id with status, change := (s.views id).change.set Change.data })
      (other : ViewId) : p other ((s.unrender id).views other) := by
    rw [heq]
    exact modify_forall (fun other _ => h other) hid other
  have isSome : ({ s.views id with status, change := (s.views id).change.set Change.data } :
      View).drawn.isSome = (s.views id).drawn.isSome := by
    unfold View.drawn
    cases (s.views id).content <;> rfl
  refine ⟨⟨views (p := fun other view => (s.views other).Like view) (fun _ => .refl _)
      ⟨rfl, rfl, rfl, rfl, rfl, rfl, rfl⟩, hcount⟩,
    views (p := fun other view => view.offset = (s.views other).offset ∧
      view.size = (s.views other).size) (fun _ => ⟨rfl, rfl⟩) ⟨rfl, rfl⟩,
    views (p := fun other view => (s.views other).change.Grows view.change)
      (fun _ => .refl _) (Change.grows_set _ _),
    views (p := fun other view => view.status.rendered = true →
      (s.views other).status.rendered = true) (fun _ h => h) hrendered,
    views (p := fun other view => ((s.views other).drawn.isSome →
      (s.views other).status.rendered = false) → view.drawn.isSome →
        view.status.rendered = false) (fun _ h => h) ?_, hpictured, ?_, ?_⟩
  · intro _ hisSome
    rw [isSome] at hisSome
    exact hdrawn hisSome
  · intro other hne
    rw [heq, modify_other _ _ hne]
  · rw [heq, modify_same]
    exact ⟨hany _, fun hisSome => hdrawn (isSome ▸ hisSome)⟩

end Screen

end Fimbulwinter.Gui
