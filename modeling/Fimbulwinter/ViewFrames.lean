import Fimbulwinter.ViewUpdating

/-! # Frames of the graphical interface

Messages come in any order between two frames, and a frame refreshes the screen. Every screen
that is reached is consistent, and what is rendered can be reached from the root. -/
namespace Fimbulwinter.Gui

theorem View.regroup_children_sublist (view : View) {f : List ViewId → List ViewId}
    (hf : ∀ children, (f children).Sublist children) :
    (view.regroup f).children.Sublist view.children := by
  unfold View.regroup
  split
  · rename_i hcontent
    simp only [View.children, hcontent]
    exact hf _
  · exact .refl _

theorem View.regroup_children {view : View} (f : List ViewId → List ViewId) {layout : Layout}
    {children : List ViewId} (hcontent : view.content = .group layout children) :
    (view.regroup f).children = f children := by
  simp [View.regroup, View.children, hcontent]

namespace Screen

variable {s s' t : Screen} {id root : ViewId}

theorem visibilityChange_sizes : visibilityChange.sizes = true := by decide

theorem regroup_parents (s : Screen) (group : ViewId) (f : List ViewId → List ViewId) :
    (s.modify group (·.regroup f)).parents = s.parents :=
  funext <| modify_forall (p := fun other view => view.parent = s.parents other)
    (fun _ _ => rfl) (regroup_parent _ f)

/-- A group forgets a child, as it is going to find out. -/
theorem ConsistentBut.abandon (h : s.ConsistentBut (s.parents id)) {group : ViewId}
    (hparent : s.parents id = some group) : (s.abandon group id).ConsistentBut (s.parents id) := by
  refine h.regroup _ (h.tree.congr (regroup_parents s group _) (modify_forall
    (p := fun other view => view.children.Sublist (s.views other).children)
    (fun _ _ => .refl _) ?_) rfl) (.inl hparent.symm)
  exact View.regroup_children_sublist _ fun _ => List.erase_sublist

theorem Tree.adopt (h : s.Tree) {group : ViewId} (hparent : s.parents id = some group)
    (hlt : id < s.count) (hnew : id ∉ (s.views group).children) : (s.adopt group id).Tree := by
  have hparents : (s.adopt group id).parents = s.parents := regroup_parents s group (· ++ [id])
  refine ⟨?_, ?_, ?_⟩
  · rw [hparents]
    exact h.parent_lt
  · rw [hparents]
    refine modify_forall (p := fun other view => ∀ child ∈ view.children,
      s.parents child = some other ∧ child < s.count) (fun other _ => h.child other) ?_
    cases hcontent : (s.views group).content with
    | group layout children =>
      intro child hchild
      rw [View.regroup_children _ hcontent] at hchild
      rcases List.mem_append.mp hchild with hchild | hchild
      · exact h.child group child (by simpa [View.children, hcontent] using hchild)
      · rw [List.mem_singleton.mp hchild]
        exact ⟨hparent, hlt⟩
    | color _ | text _ _ | texture _ => simp [View.regroup, View.children, hcontent]
  · refine modify_forall (p := fun _ view => view.children.Nodup) (fun other _ => h.nodup other) ?_
    cases hcontent : (s.views group).content with
    | group layout children =>
      rw [View.regroup_children _ hcontent]
      have hchildren : (s.views group).children = children := by simp [View.children, hcontent]
      rw [hchildren] at hnew
      refine List.nodup_append.mpr ⟨hchildren ▸ h.nodup group, by simp, ?_⟩
      rintro child hchild _ hid rfl
      exact hnew (List.mem_singleton.mp hid ▸ hchild)
    | color _ | text _ _ | texture _ => simp [View.regroup, View.children, hcontent]

/-- A group gets a child of its own, as it is going to find out. -/
theorem ConsistentBut.adopt {except : Option ViewId} (h : s.ConsistentBut except) {group : ViewId}
    (hparent : s.parents id = some group) (hlt : id < s.count)
    (hnew : id ∉ (s.views group).children)
    (hexcept : some group = except ∨ (s.views group).change.resizes = true) :
    (s.adopt group id).ConsistentBut except :=
  h.regroup _ (h.tree.adopt hparent hlt hnew) hexcept

theorem ConsistentBut.consistent_of_root (h : s.ConsistentBut (s.parents id))
    (hparent : s.parents id = none) : s.Consistent :=
  (hparent ▸ h).consistent

/-- The view with its new status, before anything below it is visited -/
theorem Consistent.shouldRender (h : s.Consistent) (shouldRender : Bool) :
    (s.modify id fun view =>
      { view with status := { view.status with shouldRender } }).Consistent := by
  have hbut := h.modifyNoted id none
    (f := fun view => { view with status := { view.status with shouldRender } })
    ⟨rfl, rfl, rfl, rfl, rfl, rfl, rfl⟩ ⟨rfl, rfl⟩ (.refl _)
    ⟨rfl, rfl, rfl, fun hclean => ⟨hclean, rfl⟩⟩ fun _ _ => .inr (.inr rfl)
  exact hbut.consistent

theorem Consistent.hideContent (h : s.Consistent) (hlt : id < s.count) :
    Visited (fun view => view.drawn.isSome → view.status.rendered = false)
      (s.modify id fun view => { view with status := { view.status with shouldRender := false } })
      (s.hideContent id) [id] :=
  visit_visited unrender_touches s.count (h.shouldRender false).tree hlt (Nat.le_add_right _ _)

theorem Consistent.hide (h : s.Consistent) (hlt : id < s.count) : (s.hide id).Consistent := by
  have hvisited := h.hideContent hlt
  obtain ⟨hbut, -⟩ := hvisited.consistentBut (h.shouldRender false)
  rw [← hvisited.like.parents] at hbut
  have hcount := hvisited.like.count
  unfold Screen.hide
  generalize s.hideContent id = s' at hbut hcount
  dsimp only
  cases hparent : (s'.views id).parent with
  | none => exact hbut.consistent_of_root hparent
  | some group =>
    have habandon := hbut.abandon hparent
    rw [← congrFun (regroup_parents s' group (·.erase id)) id] at habandon
    have hlt' : id < (s'.abandon group id).count := by
      rw [Screen.abandon, modify_count, hcount]
      exact hlt
    exact habandon.parent hlt' _ fun _ _ => .inl visibilityChange_sizes

/-- More changes are noted by a view that has some. -/
theorem Consistent.setChange (h : s.Consistent) (flags : BitVec 32)
    (hany : ∀ group, s.parents id = some group → (s.views group).change.any = true)
    (hid : (s.views id).change.any = true) : (s.modify id (·.setChange flags)).Consistent := by
  have hbut := h.modifyNoted id none (f := (·.setChange flags))
    (setChange_like _ _) ⟨rfl, rfl⟩ (Change.grows_set _ _)
    ⟨rfl, rfl, rfl, fun hclean => by
      rw [View.setChange, Change.any_set, hid] at hclean
      cases hclean⟩ fun group hgroup => .inr (.inl (hany group hgroup))
  exact hbut.consistent

theorem Consistent.showView (h : s.Consistent) (hlt : id < s.count)
    (hnew : ∀ group, (s.views id).parent = some group → id ∉ (s.views group).children) :
    (s.showView id).Consistent := by
  have hbut := h.modifyNoted id (s.parents id)
    (f := .shown)
    ⟨rfl, rfl, rfl, rfl, rfl, rfl, rfl⟩ ⟨rfl, rfl⟩ (Change.grows_set _ _)
    ⟨rfl, rfl, rfl, fun hclean => by
      rw [View.shown, Change.any_set, Bool.or_eq_false_iff] at hclean
      exact absurd hclean.2 (by decide)⟩ fun group hgroup => .inl hgroup.symm
  have like : s.Like (s.modify id .shown) := .modify ⟨rfl, rfl, rfl, rfl, rfl, rfl, rfl⟩
  rw [← like.parents] at hbut
  unfold Screen.showView
  dsimp only
  generalize s.modify id .shown = s' at hbut like
  cases hparent : (s'.views id).parent with
  | none => exact hbut.consistent_of_root hparent
  | some group =>
    have hmem : id ∉ (s'.views group).children := by
      rw [(like.views group).children]
      exact hnew group ((like.views id).parent ▸ hparent)
    have hlt' : id < s'.count := by
      rw [like.count]
      exact hlt
    have hadopt := hbut.adopt hparent hlt' hmem (.inl hparent.symm)
    have hparents := regroup_parents s' group (· ++ [id])
    rw [← congrFun hparents id] at hadopt
    have hconsistent := hadopt.parent hlt' visibilityChange
      fun _ _ => .inl visibilityChange_sizes
    obtain ⟨told, -⟩ := parent_told (s'.adopt group id).count hadopt.tree hlt' visibilityChange
    have habove : Above (s'.adopt group id).parents group id := by
      rw [Screen.adopt, hparents]
      exact .single hparent
    refine hconsistent.setChange _ (fun other hother => told.told other ?_)
      (told.told group habove)
    rw [told.like.parents] at hother
    exact .head hother habove

/-- `creation` makes up for new children of a group. -/
theorem ConsistentBut.creation (h : s.ConsistentBut (some id)) (hlt : id < s.count) :
    (s.creation id).Consistent := by
  have hrewrapped := rewrap_rewrapped s id true true
  have htree : (s.rewrap id true true).1.Tree := h.tree.of_like hrewrapped.like
  have hcount := hrewrapped.like.count
  obtain ⟨told, hgroup⟩ := parent_told (s.rewrap id true true).1.count htree
    (by rw [hcount]; exact hlt) (s.rewrap id true true).2
  rw [hrewrapped.like.parents] at told
  obtain ⟨told, hresizes⟩ := hrewrapped.told h.tree told fun hsizes group hmem => by
    refine hgroup hsizes group ?_ ?_
    · rw [hrewrapped.like.parents]
      exact (h.tree.child group id hmem).1
    · rw [(hrewrapped.like.views group).children]
      exact List.ne_nil_of_mem hmem
  refine h.told told ?_ (fun group hgroup => .inl (Option.some.inj hgroup).symm) ?_
  · rintro group child (rfl | habove) hparent
    · exact .inr (.single hparent)
    · exact .inr (.head hparent habove)
  · intro group hgroup hchildren
    obtain rfl := Option.some.inj hgroup
    exact .inl (hresizes rfl hchildren)

/-! ## Growing -/

/-- Places for views that have not been created are not rendered. -/
def Fresh (s : Screen) : Prop := ∀ id, s.count ≤ id → (s.views id).status.rendered = false

/-- What creating views does to those that were there -/
structure Grown (s s' : Screen) : Prop where
  count : s.count ≤ s'.count
  change : ∀ other, other < s.count → (s'.views other).change = (s.views other).change
  rendered : ∀ other, (s'.views other).status.rendered = true →
    (s.views other).status.rendered = true
  children : ∀ other, other < s.count → ∀ child ∈ (s.views other).children,
    child ∈ (s'.views other).children

theorem Grown.refl (s : Screen) : s.Grown s :=
  ⟨Nat.le_refl _, fun _ _ => rfl, fun _ h => h, fun _ _ _ h => h⟩

theorem Grown.trans (h : s.Grown s') (h' : s'.Grown t) : s.Grown t where
  count := Nat.le_trans h.count h'.count
  change other hlt := (h'.change other (Nat.lt_of_lt_of_le hlt h.count)).trans (h.change other hlt)
  rendered other hother := h.rendered other (h'.rendered other hother)
  children other hlt child hchild :=
    h'.children other (Nat.lt_of_lt_of_le hlt h.count) child (h.children other hlt child hchild)

/-- A new view may change. -/
theorem Grown.modify (h : s.Grown s') (hid : s.count ≤ id) {f : View → View}
    (status : (f (s'.views id)).status = (s'.views id).status) : s.Grown (s'.modify id f) where
  count := h.count
  change other hlt := by
    rw [modify_other _ _ (Nat.ne_of_lt (Nat.lt_of_lt_of_le hlt hid))]
    exact h.change other hlt
  rendered other hother := h.rendered other <|
    modify_forall (p := fun other view => view.status.rendered = true →
      (s'.views other).status.rendered = true) (fun _ _ h => h) (by rw [status]; exact fun h => h)
      other hother
  children other hlt := by
    rw [modify_other _ _ (Nat.ne_of_lt (Nat.lt_of_lt_of_le hlt hid))]
    exact h.children other hlt

theorem Fresh.grown (h : s.Fresh) (grown : s.Grown s') : s'.Fresh := by
  intro id hid
  cases hrendered : (s'.views id).status.rendered with
  | false => rfl
  | true =>
    have := grown.rendered id hrendered
    rw [h id (Nat.le_trans grown.count hid)] at this
    cases this

theorem emplace_forall {p : ViewId → View → Prop} {view : View}
    (h : ∀ other, other ≠ s.count → p other (s.views other)) (hnew : p s.count view)
    (other : ViewId) : p other ((s.emplace view).views other) :=
  modify_forall (f := fun _ => view) h hnew other

theorem emplace_other (view : View) {other : ViewId} (hne : other ≠ s.count) :
    (s.emplace view).views other = s.views other := Function.update_of_ne hne _ _

theorem emplace_same (s : Screen) (view : View) : (s.emplace view).views s.count = view :=
  Function.update_self _ _ _

/-- A view that nobody has as a child is added. -/
theorem ConsistentBut.emplace {except : Option ViewId} (h : s.ConsistentBut except)
    (fresh : (s.views s.count).status.rendered = false) (view : View) {group : ViewId}
    (hparent : view.parent = some group) (hgroup : group < s.count)
    (hchildren : view.children = []) (hrendered : view.status.rendered = false)
    (hany : view.change.any = true) : (s.emplace view).ConsistentBut except := by
  have hchild : ∀ other, ∀ child ∈ ((s.emplace view).views other).children,
      other ≠ s.count ∧ child ≠ s.count ∧ child ∈ (s.views other).children := by
    refine emplace_forall (p := fun other view => ∀ child ∈ view.children,
      other ≠ s.count ∧ child ≠ s.count ∧ child ∈ (s.views other).children) ?_ ?_
    · intro other hne child hchild
      exact ⟨hne, Nat.ne_of_lt (h.tree.child other child hchild).2, hchild⟩
    · simp [hchildren]
  refine ⟨⟨?_, ?_, ?_⟩, ?_, ?_, ?_⟩
  · refine emplace_forall (p := fun other view => ∀ group, view.parent = some group →
      group < other) (fun other _ => h.tree.parent_lt other) ?_
    intro other hother
    rw [hparent] at hother
    rwa [← Option.some.inj hother]
  · intro other child hmem
    obtain ⟨-, hne, hmem⟩ := hchild other child hmem
    obtain ⟨hparent, hlt⟩ := h.tree.child other child hmem
    rw [parents, emplace_other _ hne]
    exact ⟨hparent, Nat.lt_succ_of_lt hlt⟩
  · exact emplace_forall (p := fun _ view => view.children.Nodup)
      (fun other _ => h.tree.nodup other) (by rw [hchildren]; exact List.nodup_nil)
  · intro other hne child hmem
    obtain ⟨hother, hchildNe, hmem⟩ := hchild other child hmem
    rw [emplace_other _ hchildNe, emplace_other _ hother]
    exact h.covers other hne child hmem
  · intro other hne
    by_cases heq : other = s.count
    · refine .inr (placed_of_children_nil ?_)
      rw [heq, emplace_same, hchildren]
    · rw [Arranged, emplace_other _ heq]
      refine (h.arranged other hne).imp_right fun hplaced => hplaced.congr
        (by rw [emplace_other _ heq]) (by rw [emplace_other _ heq]; exact ⟨rfl, rfl⟩)
        fun child hmem => ?_
      rw [emplace_other _ (Nat.ne_of_lt (h.tree.child other child hmem).2)]
      exact .refl _
  · obtain ⟨picture, hreplay, hshown⟩ := h.pictured
    refine ⟨picture, hreplay, emplace_forall (p := fun other view => view.Shown (picture other))
      (fun other _ => hshown other) ?_⟩
    have hnone : picture s.count = none := by
      have := (hshown s.count).rendered
      rw [fresh] at this
      simpa using this.symm
    rw [hnone]
    exact ⟨hrendered, by simp, fun _ _ => hany⟩

theorem initial_resizes : Change.initial.resizes = true := by decide

/-- A view is created in a group that is going to find out. -/
theorem ConsistentBut.create {except : Option ViewId} (h : s.ConsistentBut except)
    (fresh : s.Fresh) (content : Content) (data : ViewData) {group : ViewId}
    (hgroup : group < s.count) (hexcept : some group = except ∨
      (s.views group).change.resizes = true)
    (hcontent : (View.new content data group).children = []) :
    (s.create content data group).ConsistentBut except ∧ s.Grown (s.create content data group) ∧
      (s.create content data group).count = s.count + 1 ∧
      (s.create content data group).views s.count = .new content data group ∧
      (s.create content data group).parents s.count = some group := by
  have hne : group ≠ s.count := Nat.ne_of_lt hgroup
  have hemplace := h.emplace (fresh s.count (Nat.le_refl _))
    (.new content data group) rfl hgroup hcontent rfl (Change.any_of_resizes initial_resizes)
  have hsame : (s.create content data group).views s.count = .new content data group := by
    rw [Screen.create, Screen.adopt, modify_other _ _ (Ne.symm hne), emplace_same]
  refine ⟨hemplace.adopt ?_ (Nat.lt_succ_self _) ?_ ?_, ⟨Nat.le_succ _, ?_, ?_, ?_⟩, rfl, hsame,
    by rw [parents, hsame]; rfl⟩
  · rw [parents, emplace_same]
    rfl
  · rw [emplace_other _ hne]
    exact fun hmem => Nat.lt_irrefl _ (h.tree.child group s.count hmem).2
  · rwa [emplace_other _ hne]
  · intro other hlt
    refine modify_forall (s := s.emplace (.new content data group))
      (f := (·.regroup (· ++ [s.count]))) (p := fun other view => other < s.count →
        view.change = (s.views other).change) (fun other _ hlt => ?_) (fun hlt => ?_) other hlt
    · rw [emplace_other _ (Nat.ne_of_lt hlt)]
    · rw [regroup_change, emplace_other _ (Nat.ne_of_lt hlt)]
  · have hrendered : ∀ other, ((s.emplace (.new content data group)).views
        other).status.rendered = true → (s.views other).status.rendered = true :=
      emplace_forall (p := fun other view => view.status.rendered = true →
        (s.views other).status.rendered = true) (fun _ _ h => h) fun h => Bool.noConfusion h
    refine modify_forall (s := s.emplace (.new content data group))
      (f := (·.regroup (· ++ [s.count]))) (p := fun other view => view.status.rendered = true →
        (s.views other).status.rendered = true) (fun other _ => hrendered other) ?_
    rw [(regroup_noted _ _).rendered]
    exact hrendered group
  · intro other hlt child hchild
    have hold : child ∈ ((s.emplace (.new content data group)).views other).children := by
      rwa [emplace_other _ (Nat.ne_of_lt hlt)]
    refine modify_forall (s := s.emplace (.new content data group))
      (f := (·.regroup (· ++ [s.count]))) (p := fun other view =>
        child ∈ ((s.emplace (.new content data group)).views other).children →
          child ∈ view.children) (fun _ _ h => h) (fun hmem => ?_) other hold
    cases hgroupContent : ((s.emplace (.new content data group)).views group).content with
    | group layout children =>
      rw [View.regroup_children _ hgroupContent]
      exact List.mem_append_left _ (by simpa [View.children, hgroupContent] using hmem)
    | color _ | text _ _ | texture _ => simp [View.children, hgroupContent] at hmem

/-- What creating views under a group keeps -/
structure Creates (except : Option ViewId) (s s' : Screen) : Prop where
  but : s'.ConsistentBut except
  grown : s.Grown s'

mutual

theorem createView_creates {s : Screen} {except : Option ViewId} (h : s.ConsistentBut except) (fresh : s.Fresh)
    {group : ViewId} (hgroup : group < s.count)
    (hexcept : some group = except ∨ (s.views group).change.resizes = true) :
    ∀ data : DataVariant, Creates except s (s.createView group data)
  | .group data layout children => by
    obtain ⟨hbut, grown, hcount, hnew, -⟩ := h.create fresh (.group layout []) data hgroup hexcept rfl
    rw [createView]
    have hcreates := createViews_creates hbut (fresh.grown grown)
      (Nat.lt_of_lt_of_eq (Nat.lt_succ_self s.count) hcount.symm)
      (.inr (by rw [hnew]; exact initial_resizes)) children
    exact ⟨hcreates.but, grown.trans hcreates.grown⟩
  | .panel data color => by
    obtain ⟨hbut, grown, -⟩ := h.create fresh (.color color) data hgroup hexcept rfl
    exact ⟨hbut, grown⟩
  | .text data display color => by
    obtain ⟨hbut, grown, hcount, hnew, hparent⟩ := h.create fresh (.text display color) data
      hgroup hexcept rfl
    rw [createView]
    obtain ⟨view, heq, like, status, -, hany, -, -⟩ :=
      updateText_eq (s.create (.text display color) data group) s.count display
    rw [heq]
    have hchildren : ((s.create (.text display color) data group).views s.count).children = [] := by
      rw [hnew]
      rfl
    refine ⟨hbut.modifyLeaf hchildren (by rw [like.children, hchildren]) like.parent
      ⟨by rw [status], like.selectable, like.drawn_isSome, fun hclean => ?_⟩ fun other hother => ?_,
      grown.modify (Nat.le_refl _) status⟩
    · rw [hany] at hclean
      cases hclean
    · rw [hparent] at hother
      obtain rfl := Option.some.inj hother
      rwa [grown.change group hgroup]
  | .texture data texture => by
    obtain ⟨hbut, grown, -⟩ := h.create fresh (.texture texture) data hgroup hexcept rfl
    exact ⟨hbut, grown⟩

theorem createViews_creates {s : Screen} {except : Option ViewId} (h : s.ConsistentBut except)
    (fresh : s.Fresh) {group : ViewId} (hgroup : group < s.count)
    (hexcept : some group = except ∨ (s.views group).change.resizes = true) :
    ∀ datas : List DataVariant, Creates except s (s.createViews group datas)
  | [] => ⟨h, .refl s⟩
  | data :: datas => by
    obtain ⟨hbut, grown⟩ := createView_creates h fresh hgroup hexcept data
    rw [createViews]
    have hcreates := createViews_creates hbut (fresh.grown grown)
      (Nat.lt_of_lt_of_le hgroup grown.count)
      (hexcept.imp_right fun hresizes => by rwa [grown.change group hgroup]) datas
    exact ⟨hcreates.but, grown.trans hcreates.grown⟩

end

/-! ## What is rendered -/

/-- What is rendered is reached from the root. -/
structure Rooted (root : ViewId) (s : Screen) : Prop where
  root_lt : root < s.count
  rendered : ∀ other, (s.views other).status.rendered = true → s.Reach root other

theorem Tree.reach_lt (h : s.Tree) (hlt : id < s.count) {other : ViewId}
    (hreach : s.Reach id other) : other < s.count := by
  induction hreach with
  | refl => exact hlt
  | tail _ hchild _ => exact (h.child _ _ hchild).2

theorem Rooted.fresh (h : s.Rooted root) (tree : s.Tree) : s.Fresh := by
  intro id hid
  cases hrendered : (s.views id).status.rendered with
  | false => rfl
  | true =>
    have hlt := tree.reach_lt h.root_lt (h.rendered id hrendered)
    exact absurd hlt (Nat.not_lt_of_le hid)

theorem reach_of_children (h : ∀ other, (s'.views other).children = (s.views other).children) :
    s'.Reach = s.Reach := by
  have : (fun group child => child ∈ (s'.views group).children) =
      fun group child => child ∈ (s.views group).children := by
    funext group child
    rw [h group]
  rw [Reach, this, Reach]

theorem Rooted.of_reach (h : s.Rooted root) (hcount : s'.count = s.count)
    (hreach : s'.Reach = s.Reach) (hrendered : ∀ other, (s'.views other).status.rendered = true →
      (s.views other).status.rendered = true) : s'.Rooted root := by
  refine ⟨by rw [hcount]; exact h.root_lt, fun other hother => ?_⟩
  rw [hreach]
  exact h.rendered other (hrendered other hother)

theorem Rooted.told {who : ViewId → Prop} (h : s.Rooted root) (told : s.Told s' who) :
    s'.Rooted root :=
  h.of_reach told.like.count told.like.reach fun other => by rw [told.status]; exact fun h => h

theorem Rooted.modify (h : s.Rooted root) {f : View → View}
    (hchildren : (f (s.views id)).children = (s.views id).children)
    (hrendered : (f (s.views id)).status.rendered = (s.views id).status.rendered) :
    (s.modify id f).Rooted root := by
  refine h.of_reach rfl (reach_of_children (modify_forall
    (p := fun other view => view.children = (s.views other).children) (fun _ _ => rfl)
    hchildren)) ?_
  exact modify_forall (p := fun other view => view.status.rendered = true →
    (s.views other).status.rendered = true) (fun _ _ h => h) (by rw [hrendered]; exact fun h => h)

/-- What is not reached from a view is reached without it. -/
theorem reach_avoid (id : ViewId) {other : ViewId} (h : s.Reach root other) (hnot : ¬ s.Reach id other)
    (hchildren : ∀ group, ∀ child ∈ (s.views group).children, child ≠ id →
      child ∈ (s'.views group).children) : s'.Reach root other := by
  induction h with
  | refl => exact .refl
  | tail hreach hchild ih =>
    refine (ih fun hback => hnot (hback.tail hchild)).tail (hchildren _ _ hchild ?_)
    rintro rfl
    exact hnot .refl

theorem reach_mono {other : ViewId} (h : s.Reach root other)
    (hchildren : ∀ group, s.Reach root group → ∀ child ∈ (s.views group).children,
      child ∈ (s'.views group).children) : s'.Reach root other := by
  induction h with
  | refl => exact .refl
  | tail hreach hchild ih => exact ih.tail (hchildren _ hreach _ hchild)

theorem regroup_rendered (s : Screen) (group : ViewId) (f : List ViewId → List ViewId)
    (other : ViewId) (h : ((s.modify group (·.regroup f)).views other).status.rendered = true) :
    (s.views other).status.rendered = true :=
  modify_forall (p := fun other view => view.status.rendered = true →
    (s.views other).status.rendered = true) (fun _ _ h => h)
    (by rw [(regroup_noted _ _).rendered]; exact fun h => h) other h

theorem mem_regroup {group : ViewId} {f : List ViewId → List ViewId} {other child : ViewId}
    (hf : ∀ children, child ∈ children → child ∈ f children)
    (hchild : child ∈ (s.views other).children) :
    child ∈ ((s.modify group (·.regroup f)).views other).children := by
  refine modify_forall (p := fun other view =>
    child ∈ (s.views other).children → child ∈ view.children) (fun _ _ h => h)
    (fun hmem => ?_) other hchild
  cases hcontent : (s.views group).content with
  | group layout children =>
    rw [View.regroup_children _ hcontent]
    exact hf children (by simpa [View.children, hcontent] using hmem)
  | color _ | text _ _ | texture _ => simp [View.children, hcontent] at hmem

theorem Rooted.adopt (h : s.Rooted root) (group id : ViewId) : (s.adopt group id).Rooted root := by
  refine ⟨h.root_lt, fun other hother => ?_⟩
  have hold := h.rendered other (regroup_rendered s group _ other hother)
  exact reach_mono hold fun _ _ _ hchild =>
    mem_regroup (fun _ hmem => List.mem_append_left _ hmem) hchild

/-- A group may forget a view when nothing under it is rendered. -/
theorem Rooted.abandon (h : s.Rooted root) (group : ViewId)
    (hunder : ∀ other, s.Reach id other → (s.views other).status.rendered = false) :
    (s.abandon group id).Rooted root := by
  refine ⟨h.root_lt, fun other hother => ?_⟩
  have hold := regroup_rendered s group _ other hother
  refine reach_avoid id (h.rendered other hold) (fun hreach => ?_) fun _ _ hchild hne =>
    mem_regroup (fun _ hmem => (List.mem_erase_of_ne hne).mpr hmem) hchild
  rw [hunder other hreach] at hold
  cases hold

theorem Pictured.drawn_of_rendered (h : s.Pictured)
    (hrendered : (s.views id).status.rendered = true) : (s.views id).drawn.isSome := by
  obtain ⟨picture, -, hshown⟩ := h
  have hsome := (hshown id).rendered
  rw [hrendered] at hsome
  obtain ⟨⟨data, selectable⟩, hentry⟩ := Option.isSome_iff_exists.mp hsome.symm
  exact ((hshown id).drawn data selectable hentry).2.1

/-- What every reached screen is -/
structure Valid (root : ViewId) (s : Screen) : Prop where
  consistent : s.Consistent
  rooted : s.Rooted root

theorem Valid.hide (h : s.Valid root) (hlt : id < s.count) : (s.hide id).Valid root := by
  refine ⟨h.consistent.hide hlt, ?_⟩
  have hvisited := h.consistent.hideContent hlt
  have hpictured := (hvisited.pictured (h.consistent.shouldRender false).pictured)
  have hshould : (s.modify id fun view =>
      { view with status := { view.status with shouldRender := false } }).Rooted root :=
    h.rooted.modify rfl rfl
  have hrooted : (s.hideContent id).Rooted root :=
    hshould.of_reach hvisited.like.count hvisited.like.reach hvisited.rendered
  have hbut := (hvisited.consistentBut (h.consistent.shouldRender false)).1
  rw [← hvisited.like.parents] at hbut
  have hunder : ∀ other, (s.hideContent id).Reach id other →
      ((s.hideContent id).views other).status.rendered = false := by
    intro other hreach
    rw [hvisited.like.reach] at hreach
    cases hrendered : ((s.hideContent id).views other).status.rendered with
    | false => rfl
    | true =>
      have := (hvisited.dirty id (List.mem_singleton_self id) other hreach).2
        (hpictured.drawn_of_rendered hrendered)
      rw [hrendered] at this
      exact this
  have hcount : (s.hideContent id).count = s.count := hvisited.like.count
  unfold Screen.hide
  generalize s.hideContent id = s' at hrooted hunder hbut hcount
  dsimp only
  cases hparent : (s'.views id).parent with
  | none => exact hrooted
  | some group =>
    have habandon := hbut.abandon hparent
    have hlt' : id < (s'.abandon group id).count := by
      rw [Screen.abandon, modify_count, hcount]
      exact hlt
    refine Rooted.told ?_ (parent_told _ habandon.tree hlt' visibilityChange).1
    exact hrooted.abandon group hunder

theorem Valid.showView (h : s.Valid root) (hlt : id < s.count)
    (hnew : ∀ group, (s.views id).parent = some group → id ∉ (s.views group).children) :
    (s.showView id).Valid root := by
  refine ⟨h.consistent.showView hlt hnew, ?_⟩
  have hshown : (s.modify id .shown).Rooted root := h.rooted.modify rfl rfl
  have like : s.Like (s.modify id .shown) := .modify ⟨rfl, rfl, rfl, rfl, rfl, rfl, rfl⟩
  have htree := h.consistent.tree.of_like like
  unfold Screen.showView
  generalize s.modify id .shown = s' at hshown like htree
  dsimp only
  cases hparent : (s'.views id).parent with
  | none => exact hshown
  | some group =>
    have hmem : id ∉ (s'.views group).children := by
      rw [(like.views group).children]
      exact hnew group ((like.views id).parent ▸ hparent)
    have hlt' : id < (s'.adopt group id).count := by
      rw [Screen.adopt, modify_count, like.count]
      exact hlt
    have told := (parent_told _ (htree.adopt hparent (like.count ▸ hlt) hmem) hlt'
      visibilityChange).1
    exact ((hshown.adopt group id).told told).modify rfl rfl

theorem Valid.reactText (h : s.Valid root) (hlt : id < s.count) {display before : List UInt8}
    {color : Option Color} (hcontent : (s.views id).content = .text before color) :
    (s.reactText id display).Valid root := by
  refine ⟨h.consistent.reactText hlt hcontent, ?_⟩
  simp only [Screen.reactText, hcontent]
  obtain ⟨view, heq, like, status, -⟩ := updateText_eq
    (s.modify id fun view => { view with content := .text display color }) id display
  rw [modify_same] at like status
  rw [modify_modify] at heq
  rw [heq]
  have hchildren : view.children = (s.views id).children := by
    rw [like.children]
    simp [View.children, hcontent]
  have hparents : (s.modify id fun _ => view).parents = s.parents := funext <|
    modify_forall (p := fun other view => view.parent = s.parents other) (fun _ _ => rfl)
      like.parent
  have tree : (s.modify id fun _ => view).Tree := by
    refine h.consistent.tree.congr hparents (modify_forall
      (p := fun other view => view.children.Sublist (s.views other).children)
      (fun _ _ => .refl _) ?_) rfl
    simp only [hchildren, List.Sublist.refl]
  exact (h.rooted.modify (f := fun _ => view) hchildren (by rw [status])).told
    (parent_told _ tree hlt _).1

theorem Valid.status (h : s.Valid root) (hlt : id < s.count) (state : State) :
    (s.status id state).Valid root := by
  refine ⟨h.consistent.status hlt state, ?_⟩
  have hvisited := visit_visited (restate_touches state) s.count h.consistent.tree hlt
    (Nat.le_add_right _ _)
  have hrooted : (s.visit (restate state) s.count id).Rooted root :=
    h.rooted.of_reach hvisited.like.count hvisited.like.reach hvisited.rendered
  refine hrooted.told (parent_told _ (h.consistent.tree.of_like hvisited.like) ?_ _).1
  rw [hvisited.like.count]
  exact hlt

theorem Valid.grow (h : s.Valid root) (hlt : id < s.count) (datas : List DataVariant) :
    ((s.createViews id datas).creation id).Valid root := by
  have fresh := h.rooted.fresh h.consistent.tree
  obtain ⟨hbut, grown⟩ := createViews_creates (h.consistent.but (some id)) fresh hlt (.inl rfl)
    datas
  have hlt' := Nat.lt_of_lt_of_le hlt grown.count
  refine ⟨hbut.creation hlt', ?_⟩
  have hrooted : (s.createViews id datas).Rooted root := by
    refine ⟨Nat.lt_of_lt_of_le h.rooted.root_lt grown.count, fun other hother => ?_⟩
    exact reach_mono (h.rooted.rendered other (grown.rendered other hother))
      fun group hreach => grown.children group (h.consistent.tree.reach_lt h.rooted.root_lt hreach)
  have hrewrapped := rewrap_rewrapped (s.createViews id datas) id true true
  have hrooted' : ((s.createViews id datas).rewrap id true true).1.Rooted root := by
    refine hrooted.of_reach hrewrapped.like.count hrewrapped.like.reach fun other hother => ?_
    by_cases heq : other = id
    · subst heq
      rwa [hrewrapped.status] at hother
    · rwa [hrewrapped.other other heq] at hother
  have hlt'' : id < ((s.createViews id datas).rewrap id true true).1.count := by
    rw [hrewrapped.like.count]
    exact hlt'
  have told := (parent_told _ (hbut.tree.of_like hrewrapped.like) hlt''
    ((s.createViews id datas).rewrap id true true).2).1
  exact (hrooted'.told told).modify
    (f := (·.setChange ((s.createViews id datas).rewrap id true true).2.flags)) rfl rfl

theorem Valid.hideItems (h : s.Valid root) {items index : ℕ}
    (hsome : s.hideItems id items index = some s') : s'.Valid root := by
  induction items generalizing s index with
  | zero =>
    obtain rfl := Option.some.inj hsome
    exact h
  | succ items ih =>
    unfold Screen.hideItems at hsome
    split at hsome
    · cases hsome
    · rename_i child hchild
      have hmem := List.mem_of_getElem? hchild
      exact ih (h.hide (h.consistent.tree.child id child hmem).2) hsome

theorem Valid.refresh (h : s.Valid root) :
    (s.refresh s.count root).Valid root ∧
      ((s.refresh s.count root).views root).change.any = false := by
  obtain ⟨hconsistent, hpassed, -⟩ := refreshes_refresh s.count s root h.consistent
    h.rooted.root_lt (Nat.le_add_right _ _)
  refine ⟨⟨hconsistent, ?_, fun other hother => ?_⟩,
    hpassed.clean root (List.mem_singleton_self root)⟩
  · rw [hpassed.like.count]
    exact h.rooted.root_lt
  · rw [hpassed.like.reach]
    rcases hpassed.rendered other hother with hrendered | ⟨id, hid, hreach⟩
    · exact h.rooted.rendered other hrendered
    · rwa [List.mem_singleton.mp hid] at hreach

theorem step_valid (h : s.Valid root) {message : Message} (accepts : s.Accepts message)
    (hstep : s.step root message = .ok s') : s'.Valid root := by
  cases message with
  | text view display =>
    obtain ⟨hlt, before, color, hcontent⟩ := accepts
    obtain rfl := Except.ok.inj hstep
    exact h.reactText hlt hcontent
  | list view itemTemplate size =>
    obtain ⟨hlt, -⟩ := accepts
    simp only [Screen.step] at hstep
    split at hstep
    · cases hstep
    · rename_i hlist
      obtain rfl := Except.ok.inj hstep
      unfold Screen.reactList at hlist
      dsimp only at hlist
      split_ifs at hlist
      · obtain rfl := Option.some.inj hlist
        exact h
      · obtain rfl := Option.some.inj hlist
        exact h.grow hlt _
      · exact h.hideItems hlist
  | close target =>
    obtain rfl := Except.ok.inj hstep
    exact h.hide accepts
  | selection target state =>
    obtain rfl := Except.ok.inj hstep
    exact h.status accepts state
  | showView view =>
    obtain rfl := Except.ok.inj hstep
    exact h.showView accepts.1 fun group hgroup => (accepts.2 group hgroup).1
  | refresh =>
    obtain rfl := Except.ok.inj hstep
    exact h.refresh.1

/-- Views as their constructors leave them, in whatever tree they were created -/
structure Initial (root : ViewId) (s : Screen) : Prop where
  tree : s.Tree
  root_lt : root < s.count
  posts : s.posts = []
  rendered : ∀ other, (s.views other).status.rendered = false
  changed : ∀ other, Change.initial.Grows (s.views other).change

theorem Initial.valid (h : s.Initial root) : s.Valid root := by
  have hresizes : ∀ other, (s.views other).change.resizes = true := fun other =>
    (h.changed other).resizes initial_resizes
  refine ⟨⟨h.tree, fun group _ _ _ => Change.any_of_resizes (hresizes group),
    fun group => .inl (hresizes group), fun _ => none, ?_, fun other => ?_⟩, h.root_lt,
    fun other hother => ?_⟩
  · rw [h.posts]
    rfl
  · exact ⟨h.rendered other, nofun, fun _ _ => Change.any_of_resizes (hresizes other)⟩
  · rw [h.rendered] at hother
    cases hother

theorem reached_valid {start : Screen} (initial : start.Initial root)
    (h : Reached (Screen.step root) Screen.Accepts start s) : s.Valid root :=
  h.invariant initial.valid fun hvalid accepts hstep => step_valid hvalid accepts hstep

/-- Without pending changes at the root there are none under it. -/
theorem Consistent.quiet (h : s.Consistent) (hroot : (s.views root).change.any = false)
    {other : ViewId} (hreach : s.Reach root other) : (s.views other).change.any = false := by
  induction hreach with
  | refl => exact hroot
  | tail _ hchild ih =>
    rename_i group child _
    cases hany : (s.views child).change.any with
    | false => rfl
    | true => rw [h.covers group child hchild hany] at ih; cases ih

/-- A view as it is created, without margins -/
def plainView (content : Content) (parent : Option ViewId) (height width : ExtendedDimen) : View where
  content
  gravity := ⟨Gravity.horizontalLeft ||| Gravity.verticalTop⟩
  margin := ⟨0, 0, 0, 0⟩
  offset := ⟨0, 0⟩
  size := ⟨height, width⟩
  parent
  change := .initial
  status := ⟨false, true, .default⟩
  selectable := false

/-- A window with two tabs, and a pager that shows the first of two pages -/
def tabViews : ViewId → View
  | 0 => plainView (.group .relative [1]) none ⟨.fixed, 677⟩ ⟨.fixed, 1004⟩
  | 1 => plainView (.group .vertical [2, 5]) (some 0) ⟨.fixed, 400⟩ ⟨.fixed, 600⟩
  | 2 => plainView (.group .horizontal [3, 4]) (some 1) ⟨.wrap, 6⟩ ⟨.wrap, 24⟩
  | 3 => plainView (.text [65, 66] none) (some 2) ⟨.wrap, 6⟩ ⟨.wrap, 12⟩
  | 4 => plainView (.text [67, 68] none) (some 2) ⟨.wrap, 6⟩ ⟨.wrap, 12⟩
  | 5 => plainView (.group .relative [6]) (some 1) ⟨.parent, 0⟩ ⟨.parent, 0⟩
  | 6 => plainView (.text [69] none) (some 5) ⟨.wrap, 6⟩ ⟨.wrap, 6⟩
  | 7 => plainView (.color none) (some 5) ⟨.parent, 0⟩ ⟨.parent, 0⟩
  | _ => plainView (.texture 0) none ⟨.parent, 0⟩ ⟨.parent, 0⟩

def tabWindow : Screen := ⟨tabViews, 8, []⟩

theorem tabWindow_initial : tabWindow.Initial 0 where
  tree :=
    { parent_lt := by
        rintro (_ | _ | _ | _ | _ | _ | _ | _ | id) group hparent <;>
          simp [parents, tabWindow, tabViews, plainView] at hparent <;> subst hparent <;> decide
      child := by
        rintro (_ | _ | _ | _ | _ | _ | _ | _ | id) child hchild <;>
          simp [View.children, tabWindow, tabViews, plainView] at hchild
        all_goals rcases hchild with rfl | rfl
        all_goals exact ⟨rfl, by decide⟩
      nodup := by
        rintro (_ | _ | _ | _ | _ | _ | _ | _ | id) <;>
          simp [View.children, tabWindow, tabViews, plainView] }
  root_lt := by decide
  posts := rfl
  rendered := by rintro (_ | _ | _ | _ | _ | _ | _ | _ | id) <;> rfl
  changed := by rintro (_ | _ | _ | _ | _ | _ | _ | _ | id) <;> exact .refl _

/-- At every moment the renderer has understood all it was told, and draws only views that can
be reached from the root. -/
theorem picture_reached {start : Screen} (initial : start.Initial root)
    (h : Reached (Screen.step root) Screen.Accepts start s) :
    ∃ picture, Picture.replay s.posts = some picture ∧
      ∀ id data selectable, picture id = some (data, selectable) →
        s.Reach root id ∧ (s.views id).drawn.isSome ∧ selectable = (s.views id).selectable := by
  have hvalid := reached_valid initial h
  obtain ⟨picture, hreplay, hshown⟩ := hvalid.consistent.pictured
  refine ⟨picture, hreplay, fun id data selectable hentry => ?_⟩
  obtain ⟨hselectable, hisSome, -⟩ := (hshown id).drawn data selectable hentry
  refine ⟨hvalid.rooted.rendered id ?_, hisSome, hselectable⟩
  rw [(hshown id).rendered, hentry]
  rfl

theorem picture_reached_tabWindow :
    ∃ picture, Picture.replay (tabWindow.reactText 3 [70]).posts = some picture ∧
      ∀ id data selectable, picture id = some (data, selectable) →
        (tabWindow.reactText 3 [70]).Reach 0 id ∧
          ((tabWindow.reactText 3 [70]).views id).drawn.isSome ∧
          selectable = ((tabWindow.reactText 3 [70]).views id).selectable :=
  picture_reached tabWindow_initial
    (.step (a := .text 3 [70]) .start ⟨by decide, _, _, rfl⟩ rfl)

/-- At the end of every frame the renderer draws exactly the views that can be reached from the
root, as they are. -/
theorem frame_picture {start : Screen} (initial : start.Initial root)
    (h : Reached (Screen.step root) Screen.Accepts start s) :
    ∃ picture, Picture.replay (s.refresh s.count root).posts = some picture ∧
      ∀ id data selectable, picture id = some (data, selectable) ↔
        (s.refresh s.count root).Reach root id ∧
          ((s.refresh s.count root).views id).drawn = some data ∧
          selectable = ((s.refresh s.count root).views id).selectable := by
  obtain ⟨hvalid, hroot⟩ := (reached_valid initial h).refresh
  generalize s.refresh s.count root = s' at hvalid hroot
  obtain ⟨picture, hreplay, hshown⟩ := hvalid.consistent.pictured
  refine ⟨picture, hreplay, fun id data selectable => ⟨fun hentry => ?_, ?_⟩⟩
  · obtain ⟨hselectable, -, hdrawn⟩ := (hshown id).drawn data selectable hentry
    have hreach : s'.Reach root id := by
      refine hvalid.rooted.rendered id ?_
      rw [(hshown id).rendered, hentry]
      rfl
    exact ⟨hreach, hdrawn (hvalid.consistent.quiet hroot hreach), hselectable⟩
  · rintro ⟨hreach, hdrawn, rfl⟩
    have hquiet := hvalid.consistent.quiet hroot hreach
    cases hentry : picture id with
    | none =>
      rw [(hshown id).missing hentry (by rw [hdrawn]; rfl)] at hquiet
      cases hquiet
    | some entry =>
      obtain ⟨hselectable, -, hsame⟩ := (hshown id).drawn entry.1 entry.2 hentry
      have hdata := hsame hquiet
      rw [hdrawn] at hdata
      rw [Option.some.inj hdata, ← hselectable]

theorem frame_picture_tabWindow :
    ∃ picture, Picture.replay (tabWindow.refresh 8 0).posts = some picture ∧
      ∀ id data selectable, picture id = some (data, selectable) ↔
        (tabWindow.refresh 8 0).Reach 0 id ∧
          ((tabWindow.refresh 8 0).views id).drawn = some data ∧
          selectable = ((tabWindow.refresh 8 0).views id).selectable :=
  frame_picture tabWindow_initial .start

theorem Valid.quiet (h : s.Valid root) {other : ViewId}
    (hreach : (s.refresh s.count root).Reach root other) :
    ((s.refresh s.count root).views other).change.any = false :=
  h.refresh.1.consistent.quiet h.refresh.2 hreach

theorem Valid.placed (h : s.Valid root) {group : ViewId}
    (hreach : (s.refresh s.count root).Reach root group) :
    (s.refresh s.count root).Placed group := by
  refine (h.refresh.1.consistent.arranged group).resolve_left fun hresizes => ?_
  have hquiet := h.quiet hreach
  rw [Change.any_of_resizes hresizes] at hquiet
  cases hquiet

/-- At the end of every frame all groups that can be reached from the root have placed their
children, and nothing is pending. -/
theorem frame_placed {start : Screen} (initial : start.Initial root)
    (h : Reached (Screen.step root) Screen.Accepts start s) {group : ViewId}
    (hreach : (s.refresh s.count root).Reach root group) :
    (s.refresh s.count root).Placed group ∧
      ((s.refresh s.count root).views group).change.any = false :=
  ⟨(reached_valid initial h).placed hreach, (reached_valid initial h).quiet hreach⟩

theorem frame_placed_tabWindow :
    (tabWindow.refresh 8 0).Placed 2 ∧
      ((tabWindow.refresh 8 0).views 2).change.any = false :=
  frame_placed tabWindow_initial .start
    ((Relation.ReflTransGen.single (b := 1) (by decide)).tail (by decide))

end Screen

end Fimbulwinter.Gui
