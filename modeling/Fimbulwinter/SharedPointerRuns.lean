import Fimbulwinter.SharedPointer

/-! # Runs of shared pointers

In every interleaving the counts are the numbers of references, and the object and the block
go exactly once, when the last reference of their kind does. -/
namespace Fimbulwinter.SharedPointer

variable {Thread I : Type*} [DecidableEq Thread]

theorem Counted.initial (creator : I) : Counted (State.initial creator : State Thread I) where
  shared := rfl
  weak := rfl
  destruct := rfl
  free := rfl
  proper := fun t op h => by cases h
  disjoint := fun t t' op op' h => by cases h
  reads := fun t t' op op' h => by cases h


section Counted

variable {s : State Thread I} {t : Thread} {op : Operation I}

/-! ## What the counts say -/

theorem Counted.weakHeld_le (h : Counted s) (hop : s.operations.find t = some op) :
    (op.weakHeld : ℤ) ≤ s.weakCount := by
  have hle := DenseTable.le_sum (f := fun _ op => op.weakHeld) hop
  rw [h.weak]
  omega

theorem Counted.sharedHeld_le (h : Counted s) (hop : s.operations.find t = some op) :
    (op.sharedHeld : ℤ) ≤ s.sharedCount := by
  have hle := DenseTable.le_sum (f := fun _ op => op.sharedHeld) hop
  rw [h.shared]
  omega

theorem Counted.weak_pos (h : Counted s) {x : Handle I} (hx : x ∈ s.owners) :
    0 < s.weakCount := by
  have hpos := Finset.card_pos.mpr ⟨x, hx⟩
  rw [h.weak]
  omega

theorem Counted.shared_pos (h : Counted s) {x : Handle I} (hx : x ∈ sharedOf s.owners) :
    0 < s.sharedCount := by
  have hpos := Finset.card_pos.mpr ⟨x, hx⟩
  rw [h.shared]
  omega

theorem Counted.freed_eq (h : Counted s) (hweak : 0 < s.weakCount) : s.freed = 0 := by
  have hfree := h.free
  rw [if_neg (ne_of_gt hweak)] at hfree
  omega

/-- An operation takes a step. -/
theorem Counted.modify (h : Counted s) (hop : s.operations.find t = some op) {op' : Operation I}
    {sharedCount weakCount : ℤ} {destructed freed : ℕ} (hchanges : op'.changes = op.changes)
    (hsource : op'.source = op.source) (hproper : op'.Proper s.owners)
    (hshared : sharedCount + op.sharedHeld = s.sharedCount + op'.sharedHeld)
    (hweak : weakCount + op.weakHeld = s.weakCount + op'.weakHeld)
    (hdestruct : destructed + (if op'.phase = .destruct then 1 else 0) +
        (if s.sharedCount = 0 then 1 else 0) =
      s.destructed + (if op.phase = .destruct then 1 else 0) + if sharedCount = 0 then 1 else 0)
    (hfree : freed + (if op'.phase = .free then 1 else 0) +
        (if s.weakCount = 0 then 1 else 0) =
      s.freed + (if op.phase = .free then 1 else 0) + if weakCount = 0 then 1 else 0) :
    Counted ⟨sharedCount, weakCount, destructed, freed, s.owners,
      s.operations.modify t fun _ => op'⟩ where
  shared := by
    have hsum := DenseTable.sum_modify (f := fun _ op => op.sharedHeld) (fun _ => op') hop
    have := h.shared
    dsimp only at hsum ⊢
    omega
  weak := by
    have hsum := DenseTable.sum_modify (f := fun _ op => op.weakHeld) (fun _ => op') hop
    have := h.weak
    dsimp only at hsum ⊢
    omega
  destruct := by
    have hsum := DenseTable.sum_modify
      (f := fun _ (op : Operation I) => if op.phase = .destruct then 1 else 0) (fun _ => op') hop
    have := h.destruct
    dsimp only at hsum ⊢
    omega
  free := by
    have hsum := DenseTable.sum_modify
      (f := fun _ (op : Operation I) => if op.phase = .free then 1 else 0) (fun _ => op') hop
    have := h.free
    dsimp only at hsum ⊢
    omega
  proper := by
    intro t' op'' hfind
    rw [DenseTable.find_modify] at hfind
    split_ifs at hfind
    · rw [hop] at hfind
      cases hfind
      exact hproper
    · exact h.proper t' op'' hfind
  disjoint := by
    intro t₁ t₂ op₁ op₂ h₁ h₂ hne
    rw [DenseTable.find_modify] at h₁ h₂
    split_ifs at h₁ h₂ with ht₁ ht₂ ht₂
    · exact absurd (ht₁.trans ht₂.symm) hne
    · rw [hop] at h₁
      cases h₁
      rw [hchanges]
      exact h.disjoint t t₂ op op₂ hop h₂ (ht₁ ▸ hne)
    · rw [hop] at h₂
      cases h₂
      rw [hchanges]
      exact h.disjoint t₁ t op₁ op h₁ hop (ht₂ ▸ hne)
    · exact h.disjoint t₁ t₂ op₁ op₂ h₁ h₂ hne
  reads := by
    intro t₁ t₂ op₁ op₂ h₁ h₂
    rw [DenseTable.find_modify] at h₁ h₂
    split_ifs at h₁ h₂
    · rw [hop] at h₁ h₂
      cases h₁
      cases h₂
      rw [hchanges, hsource]
      exact h.reads t t op op hop hop
    · rw [hop] at h₁
      cases h₁
      rw [hsource]
      exact h.reads t t₂ op op₂ hop h₂
    · rw [hop] at h₂
      cases h₂
      rw [hchanges]
      exact h.reads t₁ t op₁ op h₁ hop
    · exact h.reads t₁ t₂ op₁ op₂ h₁ h₂

/-! ## Steps of operations -/

/-- The state after a step of an operation. -/
def State.withOperation (s : State Thread I) (t : Thread) (op : Operation I) : State Thread I :=
  { s with operations := s.operations.modify t fun _ => op }

/-- A step of an operation is no misuse and leaves the counts right. -/
def Advances (s : State Thread I) (t : Thread) (op : Operation I) : Prop :=
  ∃ s' op', advance s op = .ok (s', op') ∧ s'.operations = s.operations ∧
    s'.owners = s.owners ∧ Counted (s'.withOperation t op')

theorem Counted.retry (h : Counted s) (hop : s.operations.find t = some op)
    (hphase : op.phase = .load ∨ ∃ c, op.phase = .exchange c) :
    Counted (s.withOperation t (retry s op)) := by
  have hproper := h.proper t op hop
  obtain ⟨hkind, hdrop, hgain, src, hsrc, hsource⟩ := hproper.locks hphase
  have hheld : op.sharedHeld = 0 ∧ op.weakHeld = 0 := by
    rcases hphase with hphase | ⟨c, hphase⟩
    · simp [Operation.sharedHeld, Operation.weakHeld, hkind, hphase]
    · simp [Operation.sharedHeld, Operation.weakHeld, hkind, hphase]
  have hnot : op.phase ≠ .destruct ∧ op.phase ≠ .free := by
    rcases hphase with hphase | ⟨c, hphase⟩ <;> simp [hphase]
  rw [SharedPointer.retry]
  split_ifs with hpos
  · refine h.modify hop rfl rfl ?_ ?_ ?_ ?_ ?_
    · exact
        { changed := hproper.changed
          gain := hproper.gain
          kind := by simp
          locks := fun _ => ⟨hkind, hdrop, hgain, src, hsrc, hsource⟩
          expects := fun c hc => by cases hc; exact hpos
          incShared := fun hinc => by cases hinc
          incWeak := fun hinc => by cases hinc }
    · rw [hheld.1]
      simp [Operation.sharedHeld, hkind]
    · rw [hheld.2]
      simp [Operation.weakHeld]
    · simp [hnot.1]
    · simp [hnot.2]
  · refine h.modify hop rfl rfl ?_ ?_ ?_ ?_ ?_
    · exact
        { changed := hproper.changed
          gain := fun x hx => by cases hx
          kind := by simp
          locks := by simp
          expects := fun c hc => by cases hc
          incShared := fun hinc => by cases hinc
          incWeak := fun hinc => by cases hinc }
    · rw [hheld.1]
      simp [Operation.sharedHeld, Operation.gains, hkind]
    · rw [hheld.2]
      simp [Operation.weakHeld, Operation.gains]
    · simp [hnot.1]
    · simp [hnot.2]

theorem Counted.advance_load (h : Counted s) (hop : s.operations.find t = some op)
    (hphase : op.phase = .load) : Advances s t op := by
  obtain ⟨-, -, -, src, hsrc, -⟩ := (h.proper t op hop).locks (.inl hphase)
  refine ⟨s, SharedPointer.retry s op, ?_, rfl, rfl, h.retry hop (.inl hphase)⟩
  rw [advance, if_neg (not_not_intro (h.freed_eq (h.weak_pos hsrc))), hphase]

theorem Counted.advance_exchange (h : Counted s) (hop : s.operations.find t = some op) {c : ℤ}
    (hphase : op.phase = .exchange c) : Advances s t op := by
  have hproper := h.proper t op hop
  obtain ⟨hkind, hdrop, hgain, src, hsrc, hsource⟩ := hproper.locks (.inr ⟨c, hphase⟩)
  have hfreed := not_not_intro (h.freed_eq (h.weak_pos hsrc))
  by_cases hc : s.sharedCount = c
  · have hpos := hproper.expects c hphase
    refine ⟨{ s with sharedCount := s.sharedCount + 1 }, { op with phase := .incWeak }, ?_, rfl,
      rfl, ?_⟩
    · rw [advance, if_neg hfreed, hphase]
      exact if_pos hc
    · refine h.modify hop rfl rfl ?_ ?_ ?_ ?_ ?_
      · exact
          { changed := hproper.changed
            gain := hproper.gain
            kind := by simp
            locks := by simp
            expects := fun c hc => by cases hc
            incShared := fun hinc => by cases hinc
            incWeak := fun _ => ⟨hgain, .inr ⟨src, hsrc, hsource⟩⟩ }
      · simp [Operation.sharedHeld, hkind, hphase, hdrop]
      · simp [Operation.weakHeld, hphase, hdrop]
      · rw [if_neg (show ¬ s.sharedCount = 0 by omega),
          if_neg (show ¬ s.sharedCount + 1 = 0 by omega)]
        simp [hphase]
      · simp [hphase]
  · refine ⟨s, SharedPointer.retry s op, ?_, rfl, rfl, h.retry hop (.inr ⟨c, hphase⟩)⟩
    rw [advance, if_neg hfreed, hphase]
    exact if_neg hc

theorem Counted.advance_incShared (h : Counted s) (hop : s.operations.find t = some op)
    (hphase : op.phase = .incShared) : Advances s t op := by
  have hproper := h.proper t op hop
  have hkind := hproper.kind (.inl hphase)
  obtain ⟨hgain, hsource⟩ := hproper.incShared hphase
  have hshared := h.sharedHeld_le hop
  have hweak := h.weakHeld_le hop
  simp only [Operation.sharedHeld, Operation.weakHeld, hkind, hphase] at hshared hweak
  -- The reference that is given up later, or the handle that is copied, keeps the object alive.
  have hpos : 0 < s.sharedCount ∧ 0 < s.weakCount := by
    rcases hsource with hdrop | ⟨src, hsrc, -⟩
    · rw [hdrop] at hshared hweak
      exact ⟨hshared, hweak⟩
    · exact ⟨h.shared_pos hsrc, h.weak_pos (Finset.mem_filter.mp hsrc).1⟩
  refine ⟨{ s with sharedCount := s.sharedCount + 1 }, { op with phase := .incWeak }, ?_, rfl,
    rfl, ?_⟩
  · rw [advance, if_neg (not_not_intro (h.freed_eq hpos.2)), hphase]
  · refine h.modify hop rfl rfl ?_ ?_ ?_ ?_ ?_
    · exact
        { changed := hproper.changed
          gain := hproper.gain
          kind := by simp
          locks := by simp
          expects := fun c hc => by cases hc
          incShared := fun hinc => by cases hinc
          incWeak := fun _ => ⟨hgain, hsource.imp_right fun ⟨src, hsrc, heq⟩ =>
            ⟨src, (Finset.mem_filter.mp hsrc).1, heq⟩⟩ }
    · simp only [Operation.sharedHeld, hkind, hphase]
      omega
    · simp [Operation.weakHeld, hphase]
    · rw [if_neg (show ¬ s.sharedCount = 0 by omega),
        if_neg (show ¬ s.sharedCount + 1 = 0 by omega)]
      simp [hphase]
    · simp [hphase]

theorem Counted.advance_incWeak (h : Counted s) (hop : s.operations.find t = some op)
    (hphase : op.phase = .incWeak) : Advances s t op := by
  have hproper := h.proper t op hop
  obtain ⟨hgain, hsource⟩ := hproper.incWeak hphase
  have hweak := h.weakHeld_le hop
  simp only [Operation.weakHeld, hphase] at hweak
  have hpos : 0 < s.weakCount := by
    rcases hsource with hdrop | ⟨src, hsrc, -⟩
    · rw [hdrop] at hweak
      exact hweak
    · exact h.weak_pos hsrc
  refine ⟨{ s with weakCount := s.weakCount + 1 },
    { op with phase := if op.drop then op.kind.dec else .finish }, ?_, rfl, rfl, ?_⟩
  · rw [advance, if_neg (not_not_intro (h.freed_eq hpos)), hphase]
  · have hgains : op.gains = 1 := if_pos hgain
    refine h.modify hop rfl rfl ?_ ?_ ?_ ?_ ?_
    · exact
        { changed := hproper.changed
          gain := hproper.gain
          kind := by
            cases hdrop : op.drop <;> cases hkind : op.kind <;> simp [Kind.dec]
          locks := by cases op.drop <;> cases op.kind <;> simp [Kind.dec]
          expects := by cases op.drop <;> cases op.kind <;> simp [Kind.dec]
          incShared := by cases op.drop <;> cases op.kind <;> simp [Kind.dec]
          incWeak := by cases op.drop <;> cases op.kind <;> simp [Kind.dec] }
    · cases hdrop : op.drop <;> cases hkind : op.kind <;>
        simp [Operation.sharedHeld, Kind.dec, hkind, hphase, hdrop, Operation.gains, hgain]
    · cases hdrop : op.drop <;> cases hkind : op.kind <;>
        simp [Operation.weakHeld, Kind.dec, hphase, hdrop, Operation.gains, hgain] <;> omega
    · cases op.drop <;> cases op.kind <;> simp [Kind.dec, hphase]
    · rw [if_neg (show ¬ s.weakCount = 0 by omega),
        if_neg (show ¬ s.weakCount + 1 = 0 by omega)]
      cases op.drop <;> cases op.kind <;> simp [Kind.dec, hphase]

theorem Counted.advance_decShared (h : Counted s) (hop : s.operations.find t = some op)
    (hphase : op.phase = .decShared) : Advances s t op := by
  have hproper := h.proper t op hop
  have hkind := hproper.kind (.inr (.inl hphase))
  have hshared := h.sharedHeld_le hop
  have hweak := h.weakHeld_le hop
  simp only [Operation.sharedHeld, Operation.weakHeld, hkind, hphase] at hshared hweak
  refine ⟨{ s with sharedCount := s.sharedCount - 1 },
    { op with phase := if s.sharedCount = 1 then .destruct else .decWeak }, ?_, rfl, rfl, ?_⟩
  · rw [advance, if_neg (not_not_intro (h.freed_eq (by omega))), hphase]
  · refine h.modify hop rfl rfl ?_ ?_ ?_ ?_ ?_
    · exact
        { changed := hproper.changed
          gain := hproper.gain
          kind := fun _ => hkind
          locks := by split_ifs <;> simp
          expects := by split_ifs <;> simp
          incShared := by split_ifs <;> simp
          incWeak := by split_ifs <;> simp }
    · split_ifs <;> simp only [Operation.sharedHeld, Operation.gains, hkind, hphase] <;> omega
    · split_ifs <;> simp only [Operation.weakHeld, Operation.gains, hphase]
    · rw [if_neg (show ¬ s.sharedCount = 0 by omega)]
      by_cases hone : s.sharedCount = 1
      · simp [hone, hphase]
      · rw [if_neg (show ¬ s.sharedCount - 1 = 0 by omega)]
        simp [hone, hphase]
    · split_ifs <;> simp_all

/-- An operation that is about to destruct the object is the only one, and the first. -/
theorem Counted.destructed_eq (h : Counted s) (hop : s.operations.find t = some op)
    (hphase : op.phase = .destruct) : s.destructed = 0 ∧ s.sharedCount = 0 := by
  have hle := DenseTable.le_sum
    (f := fun _ (op : Operation I) => if op.phase = .destruct then 1 else 0) hop
  have hdestruct := h.destruct
  rw [if_pos hphase] at hle
  split_ifs at hdestruct with hzero
  · exact ⟨by omega, hzero⟩
  · omega

theorem Counted.advance_destruct (h : Counted s) (hop : s.operations.find t = some op)
    (hphase : op.phase = .destruct) : Advances s t op := by
  have hproper := h.proper t op hop
  have hkind := hproper.kind (.inr (.inr hphase))
  obtain ⟨hdestructed, hzero⟩ := h.destructed_eq hop hphase
  have hweak := h.weakHeld_le hop
  simp only [Operation.weakHeld, hphase] at hweak
  refine ⟨{ s with destructed := s.destructed + 1 }, { op with phase := .decWeak }, ?_, rfl, rfl,
    ?_⟩
  · rw [advance, if_neg (not_not_intro (h.freed_eq (by omega))), hphase]
    exact if_neg (not_not_intro hdestructed)
  · refine h.modify hop rfl rfl ?_ ?_ ?_ ?_ ?_
    · exact
        { changed := hproper.changed
          gain := hproper.gain
          kind := by simp
          locks := by simp
          expects := fun c hc => by cases hc
          incShared := fun hinc => by cases hinc
          incWeak := fun hinc => by cases hinc }
    · simp [Operation.sharedHeld, Operation.gains, hkind, hphase]
    · simp [Operation.weakHeld, Operation.gains, hphase]
    · simp [hphase, hzero]
    · simp [hphase]

theorem Counted.advance_decWeak (h : Counted s) (hop : s.operations.find t = some op)
    (hphase : op.phase = .decWeak) : Advances s t op := by
  have hproper := h.proper t op hop
  have hweak := h.weakHeld_le hop
  simp only [Operation.weakHeld, hphase] at hweak
  refine ⟨{ s with weakCount := s.weakCount - 1 },
    { op with phase := if s.weakCount = 1 then .free else .finish }, ?_, rfl, rfl, ?_⟩
  · rw [advance, if_neg (not_not_intro (h.freed_eq (by omega))), hphase]
  · refine h.modify hop rfl rfl ?_ ?_ ?_ ?_ ?_
    · exact
        { changed := hproper.changed
          gain := hproper.gain
          kind := by split_ifs <;> simp
          locks := by split_ifs <;> simp
          expects := by split_ifs <;> simp
          incShared := by split_ifs <;> simp
          incWeak := by split_ifs <;> simp }
    · split_ifs <;> simp only [Operation.sharedHeld, Operation.gains, hphase]
    · split_ifs <;> simp only [Operation.weakHeld, Operation.gains, hphase] <;> omega
    · split_ifs <;> simp_all
    · rw [if_neg (show ¬ s.weakCount = 0 by omega)]
      by_cases hone : s.weakCount = 1
      · simp [hone, hphase]
      · rw [if_neg (show ¬ s.weakCount - 1 = 0 by omega)]
        simp [hone, hphase]

/-- An operation that is about to free the block is the only one, and the first. -/
theorem Counted.freed_eq_of_free (h : Counted s) (hop : s.operations.find t = some op)
    (hphase : op.phase = .free) : s.freed = 0 ∧ s.weakCount = 0 := by
  have hle := DenseTable.le_sum
    (f := fun _ (op : Operation I) => if op.phase = .free then 1 else 0) hop
  have hfree := h.free
  rw [if_pos hphase] at hle
  split_ifs at hfree with hzero
  · exact ⟨by omega, hzero⟩
  · omega

/-- Without weak references there is no shared one, and the object has been destructed. -/
theorem Counted.destructed_of_weak (h : Counted s) (hweak : s.weakCount = 0) :
    s.sharedCount = 0 ∧ s.destructed = 1 := by
  have howners : s.owners = ∅ := by
    have hcount := h.weak
    exact Finset.card_eq_zero.mp (by omega)
  have hheld : ∀ t op, s.operations.find t = some op → op.weakHeld = 0 := by
    intro t op hop
    have hle := h.weakHeld_le hop
    omega
  have hnone : ∀ t op, s.operations.find t = some op →
      op.sharedHeld = 0 ∧ op.phase ≠ .destruct := by
    intro t op hop
    have hproper := h.proper t op hop
    have hzero := hheld t op hop
    cases hphase : op.phase with
    | load | exchange c => cases hkind : op.kind <;> simp [Operation.sharedHeld, hkind, hphase]
    | incShared =>
      cases hkind : op.kind <;> simp_all [Operation.sharedHeld, Operation.weakHeld]
    | incWeak =>
      -- The handle that is copied would have a weak reference.
      obtain ⟨-, hdrop | ⟨src, hsrc, -⟩⟩ := hproper.incWeak hphase
      · simp [Operation.weakHeld, hphase, hdrop] at hzero
      · rw [howners] at hsrc
        exact absurd hsrc (Finset.notMem_empty src)
    | decShared | destruct | decWeak => simp [Operation.weakHeld, hphase] at hzero
    | free | finish =>
      cases hkind : op.kind <;> simp_all [Operation.sharedHeld, Operation.weakHeld]
  have hshared : (s.operations.sum fun _ op => op.sharedHeld) = 0 :=
    DenseTable.sum_eq_zero fun t op hop => (hnone t op hop).1
  have hdestruct : (s.operations.sum fun _ op => if op.phase = .destruct then 1 else 0) = 0 :=
    DenseTable.sum_eq_zero fun t op hop => if_neg (hnone t op hop).2
  have hzero : s.sharedCount = 0 := by
    rw [h.shared, howners, hshared]
    rfl
  have hcount := h.destruct
  rw [if_pos hzero, hdestruct] at hcount
  exact ⟨hzero, hcount⟩

theorem Counted.advance_free (h : Counted s) (hop : s.operations.find t = some op)
    (hphase : op.phase = .free) : Advances s t op := by
  have hproper := h.proper t op hop
  obtain ⟨hfreed, hzero⟩ := h.freed_eq_of_free hop hphase
  have hdestructed := (h.destructed_of_weak hzero).2
  refine ⟨{ s with freed := s.freed + 1 }, { op with phase := .finish }, ?_, rfl, rfl, ?_⟩
  · rw [advance, if_neg (not_not_intro hfreed), hphase]
    exact if_neg (by omega)
  · refine h.modify hop rfl rfl ?_ ?_ ?_ ?_ ?_
    · exact
        { changed := hproper.changed
          gain := hproper.gain
          kind := by simp
          locks := by simp
          expects := fun c hc => by cases hc
          incShared := fun hinc => by cases hinc
          incWeak := fun hinc => by cases hinc }
    · simp only [Operation.sharedHeld, Operation.gains, hphase]
    · simp only [Operation.weakHeld, Operation.gains, hphase]
    · simp [hphase]
    · simp [hphase, hzero]

/-- Every step of an operation that has not come to its end is one of these. -/
theorem Counted.advances (h : Counted s) (hop : s.operations.find t = some op)
    (hphase : op.phase ≠ .finish) : Advances s t op := by
  cases hop' : op.phase with
  | load => exact h.advance_load hop hop'
  | exchange c => exact h.advance_exchange hop hop'
  | incShared => exact h.advance_incShared hop hop'
  | incWeak => exact h.advance_incWeak hop hop'
  | decShared => exact h.advance_decShared hop hop'
  | destruct => exact h.advance_destruct hop hop'
  | decWeak => exact h.advance_decWeak hop hop'
  | free => exact h.advance_free hop hop'
  | finish => exact absurd hop' hphase

/-! ## The end of an operation -/

omit [DecidableEq Thread] in
/-- An operation stays proper if what it changes and what it reads stay as they are. -/
theorem Operation.Proper.of_owners {owners owners' : Finset (Handle I)} (h : op.Proper owners)
    (hchanged : ∀ x ∈ op.changes, x ∉ owners')
    (hsource : ∀ x ∈ owners, op.source = some x → x ∈ owners') : op.Proper owners' where
  changed := hchanged
  gain := h.gain
  kind := h.kind
  locks := fun hphase => by
    obtain ⟨hkind, hdrop, hgain, src, hsrc, heq⟩ := h.locks hphase
    exact ⟨hkind, hdrop, hgain, src, hsource src hsrc heq, heq⟩
  expects := h.expects
  incShared := fun hphase => (h.incShared hphase).imp_right fun hor => hor.imp_right
    fun ⟨src, hsrc, heq⟩ => ⟨src, Finset.mem_filter.mpr
      ⟨hsource src (Finset.mem_filter.mp hsrc).1 heq, (Finset.mem_filter.mp hsrc).2⟩, heq⟩
  incWeak := fun hphase => (h.incWeak hphase).imp_right fun hor => hor.imp_right
    fun ⟨src, hsrc, heq⟩ => ⟨src, hsource src hsrc heq, heq⟩

variable [DecidableEq I]

/-- The handle that an operation gives a reference does not have one before. -/
theorem card_insert_gain (hproper : op.Proper s.owners) (hphase : op.phase = .finish) :
    ((finish s t op).owners.card = s.owners.card + op.weakHeld) ∧
      (sharedOf (finish s t op).owners).card = (sharedOf s.owners).card + op.sharedHeld := by
  cases hgain : op.gain with
  | none =>
    cases hkind : op.kind <;>
      simp [finish, hgain, Operation.weakHeld, Operation.sharedHeld, Operation.gains, hphase,
        hkind]
  | some x =>
    obtain ⟨hx, hxkind⟩ := hproper.gain x hgain
    have hnot := hproper.changed x hx
    have hnot' : x ∉ sharedOf s.owners := fun hmem => hnot (Finset.mem_filter.mp hmem).1
    cases hkind : op.kind <;> rw [hkind] at hxkind <;>
      simp [finish, hgain, Operation.weakHeld, Operation.sharedHeld, Operation.gains, hphase,
        hkind, hnot, sharedOf, Finset.filter_insert, hxkind, Finset.card_insert_of_notMem]

theorem Counted.finish (h : Counted s) (hop : s.operations.find t = some op)
    (hphase : op.phase = .finish) : Counted (finish s t op) := by
  have hproper := h.proper t op hop
  obtain ⟨hcard, hcard'⟩ := card_insert_gain (t := t) hproper hphase
  have hfind : ∀ {t' op'}, (s.operations.erase (fun _ => ()) t).find t' = some op' →
      t' ≠ t ∧ s.operations.find t' = some op' := by
    intro t' op' hfind
    rw [DenseTable.find_erase] at hfind
    split_ifs at hfind with ht
    exact ⟨ht, hfind⟩
  exact
    { shared := by
        have hsum := DenseTable.sum_erase (f := fun _ op => op.sharedHeld) (fun _ => ()) hop
        rw [hcard', SharedPointer.finish]
        have := h.shared
        dsimp only at hsum ⊢
        omega
      weak := by
        have hsum := DenseTable.sum_erase (f := fun _ op => op.weakHeld) (fun _ => ()) hop
        rw [hcard, SharedPointer.finish]
        have := h.weak
        dsimp only at hsum ⊢
        omega
      destruct := by
        have hsum := DenseTable.sum_erase
          (f := fun _ (op : Operation I) => if op.phase = .destruct then 1 else 0) (fun _ => ())
          hop
        have := h.destruct
        rw [hphase, if_neg (by simp)] at hsum
        rw [SharedPointer.finish]
        dsimp only at hsum ⊢
        omega
      free := by
        have hsum := DenseTable.sum_erase
          (f := fun _ (op : Operation I) => if op.phase = .free then 1 else 0) (fun _ => ()) hop
        have := h.free
        rw [hphase, if_neg (by simp)] at hsum
        rw [SharedPointer.finish]
        dsimp only at hsum ⊢
        omega
      proper := by
        intro t' op' hop'
        obtain ⟨hne, hop'⟩ := hfind hop'
        have hproper' := h.proper t' op' hop'
        refine hproper'.of_owners (fun x hx hmem => ?_) (fun x hx _ => ?_)
        · rw [SharedPointer.finish] at hmem
          cases hgain : op.gain with
          | none =>
            rw [hgain] at hmem
            exact hproper'.changed x hx hmem
          | some g =>
            rw [hgain] at hmem
            rcases Finset.mem_insert.mp hmem with rfl | hmem
            · exact h.disjoint t' t op' op hop' hop hne x hx (hproper.gain x hgain).1
            · exact hproper'.changed x hx hmem
        · rw [SharedPointer.finish]
          cases op.gain with
          | none => exact hx
          | some g => exact Finset.mem_insert_of_mem hx
      disjoint := fun t₁ t₂ op₁ op₂ h₁ h₂ =>
        h.disjoint t₁ t₂ op₁ op₂ (hfind h₁).2 (hfind h₂).2
      reads := fun t₁ t₂ op₁ op₂ h₁ h₂ => h.reads t₁ t₂ op₁ op₂ (hfind h₁).2 (hfind h₂).2 }

/-! ## The beginning of an operation -/

omit [DecidableEq Thread] [DecidableEq I] in
theorem Operation.held_inc (op : Operation I) (hphase : op.phase = op.kind.inc) :
    op.weakHeld = op.drop.toNat ∧
      op.sharedHeld = if op.kind = .shared then op.drop.toNat else 0 := by
  cases hkind : op.kind <;>
    simp [Operation.weakHeld, Operation.sharedHeld, hphase, hkind, Kind.inc]

omit [DecidableEq Thread] [DecidableEq I] in
theorem Operation.held_dec (op : Operation I) (hphase : op.phase = op.kind.dec) :
    op.weakHeld = op.gains + 1 ∧
      op.sharedHeld = if op.kind = .shared then op.gains + 1 else 0 := by
  cases hkind : op.kind <;>
    simp [Operation.weakHeld, Operation.sharedHeld, hphase, hkind, Kind.dec]

theorem card_sharedOf_erase (owners : Finset (Handle I)) (x : Handle I) :
    (sharedOf owners).card =
      (sharedOf (owners.erase x)).card + if x ∈ owners ∧ x.1 = .shared then 1 else 0 := by
  rw [sharedOf, sharedOf, Finset.filter_erase]
  split_ifs with hx
  · exact (Finset.card_erase_add_one (Finset.mem_filter.mpr hx)).symm
  · rw [Finset.erase_eq_of_notMem (fun hmem => hx (Finset.mem_filter.mp hmem)), add_zero]

theorem card_erase (owners : Finset (Handle I)) (x : Handle I) :
    owners.card = (owners.erase x).card + if x ∈ owners then 1 else 0 := by
  split_ifs with hx
  · exact (Finset.card_erase_add_one hx).symm
  · rw [Finset.erase_eq_of_notMem hx, add_zero]

/-- What an operation is at its beginning. -/
structure Begins (s : State Thread I) (op : Operation I) : Prop where
  changes : ∀ x ∈ op.changes, canChange s x
  reads : ∀ x, op.source = some x → canRead s x ∧ x ∉ op.changes
  proper : op.Proper (s.owners \ op.changes.toFinset)
  quiet : op.phase ≠ .destruct ∧ op.phase ≠ .free
  weak : s.owners.card = (s.owners \ op.changes.toFinset).card + op.weakHeld
  shared : (sharedOf s.owners).card =
    (sharedOf (s.owners \ op.changes.toFinset)).card + op.sharedHeld

theorem sdiff_singleton_list (owners : Finset (Handle I)) (x : Handle I) :
    owners \ [x].toFinset = owners.erase x := by
  rw [List.toFinset_cons, List.toFinset_nil, insert_empty_eq, Finset.sdiff_singleton_eq_erase]

theorem sdiff_pair_list (owners : Finset (Handle I)) (x y : Handle I) :
    owners \ [x, y].toFinset = (owners.erase x).erase y := by
  ext z
  simp only [List.toFinset_cons, List.toFinset_nil, insert_empty_eq, Finset.mem_sdiff,
    Finset.mem_insert, Finset.mem_singleton, Finset.mem_erase, not_or]
  exact ⟨fun ⟨h, hx, hy⟩ => ⟨hy, hx, h⟩, fun ⟨hy, hx, h⟩ => ⟨h, hx, hy⟩⟩

variable {k : Kind} {target source : Handle I}

omit [DecidableEq Thread] in
/-- An operation that begins with an increment. -/
theorem begins_inc {drop : Bool} {src : Option (Handle I)} (hkind : target.1 = k)
    (hdrop : drop = decide (target ∈ s.owners)) (htarget : canChange s target)
    (hnone : src = none → drop = true)
    (hsome : ∀ x, src = some x → x ≠ target ∧ x ∈ s.owners ∧ canRead s x ∧
      (k = .shared → x.1 = .shared)) :
    Begins s ⟨k, k.inc, some target, drop, [target], src⟩ := by
  have hheld := Operation.held_inc ⟨k, k.inc, some target, drop, [target], src⟩ rfl
  have hsource : drop = true ∨ ∃ x ∈ s.owners.erase target, src = some x ∧
      (k = .shared → x.1 = .shared) := by
    cases src with
    | none => exact .inl (hnone rfl)
    | some x =>
      obtain ⟨hne, hx, -, hshared⟩ := hsome x rfl
      exact .inr ⟨x, Finset.mem_erase.mpr ⟨hne, hx⟩, rfl, hshared⟩
  exact
    { changes := fun x hx => List.mem_singleton.mp hx ▸ htarget
      reads := fun x hx => ⟨(hsome x hx).2.2.1,
        fun hmem => (hsome x hx).1 (List.mem_singleton.mp hmem)⟩
      proper := by
        rw [sdiff_singleton_list]
        exact
          { changed := fun x hx => by
              rw [List.mem_singleton.mp hx]
              exact Finset.notMem_erase target s.owners
            gain := fun x hx => by
              cases hx
              exact ⟨List.mem_singleton_self target, hkind⟩
            kind := by cases k <;> simp [Kind.inc]
            locks := by cases k <;> simp [Kind.inc]
            expects := by cases k <;> simp [Kind.inc]
            incShared := fun hinc => ⟨rfl, hsource.imp_right fun ⟨x, hx, heq, hshared⟩ =>
              ⟨x, Finset.mem_filter.mpr ⟨hx, hshared (by cases k <;> simp_all [Kind.inc])⟩,
                heq⟩⟩
            incWeak := fun _ => ⟨rfl, hsource.imp_right fun ⟨x, hx, heq, _⟩ =>
              ⟨x, hx, heq⟩⟩ }
      quiet := by cases k <;> simp [Kind.inc]
      weak := by
        rw [sdiff_singleton_list, hheld.1, hdrop, card_erase s.owners target]
        by_cases hmem : target ∈ s.owners <;> simp [hmem]
      shared := by
        rw [sdiff_singleton_list, hheld.2, hdrop, card_sharedOf_erase s.owners target, hkind]
        by_cases hmem : target ∈ s.owners <;> cases k <;> simp [hmem] }

omit [DecidableEq Thread] in
/-- An operation that begins with a decrement. -/
theorem begins_dec {src : Option (Handle I)} (hkind : target.1 = k) (hmem : target ∈ s.owners)
    (htarget : canChange s target) (hsome : ∀ x, src = some x → x ≠ target ∧ canRead s x) :
    Begins s ⟨k, k.dec, none, true, [target], src⟩ := by
  have hheld := Operation.held_dec ⟨k, k.dec, none, true, [target], src⟩ rfl
  exact
    { changes := fun x hx => List.mem_singleton.mp hx ▸ htarget
      reads := fun x hx => ⟨(hsome x hx).2,
        fun hmem => (hsome x hx).1 (List.mem_singleton.mp hmem)⟩
      proper := by
        rw [sdiff_singleton_list]
        exact
          { changed := fun x hx => by
              rw [List.mem_singleton.mp hx]
              exact Finset.notMem_erase target s.owners
            gain := fun x hx => by cases hx
            kind := by cases k <;> simp [Kind.dec]
            locks := by cases k <;> simp [Kind.dec]
            expects := by cases k <;> simp [Kind.dec]
            incShared := by cases k <;> simp [Kind.dec]
            incWeak := by cases k <;> simp [Kind.dec] }
      quiet := by cases k <;> simp [Kind.dec]
      weak := by
        rw [sdiff_singleton_list, hheld.1, card_erase s.owners target, if_pos hmem]
        rfl
      shared := by
        rw [sdiff_singleton_list, hheld.2, card_sharedOf_erase s.owners target, hkind]
        simp [hmem, Operation.gains] }

omit [DecidableEq Thread] in
/-- The handles of an operation that takes a reference from one to the other. -/
theorem begins_move (drop : Bool) (hne : source ≠ target) (hkind : target.1 = k)
    (hkind' : source.1 = k) (htarget : canChange s target) (hsource : canChange s source) :
    Begins s ⟨k, if target ∈ s.owners then k.dec else .finish,
      if source ∈ s.owners then some target else none, drop, [target, source], none⟩ := by
  have hphase : ∀ {p : Phase}, p ≠ .finish → p ≠ k.dec →
      (if target ∈ s.owners then k.dec else .finish) ≠ p := by
    intro p hp hp'
    split_ifs
    · exact hp'.symm
    · exact hp.symm
  have hgain : ∀ x, (if source ∈ s.owners then some target else none) = some x → x = target := by
    intro x hx
    split_ifs at hx
    exact (Option.some.inj hx).symm
  have hcard := card_erase s.owners target
  have hcard' := card_erase (s.owners.erase target) source
  have hshared := card_sharedOf_erase s.owners target
  have hshared' := card_sharedOf_erase (s.owners.erase target) source
  simp only [Finset.mem_erase, hne, ne_eq, not_false_eq_true, true_and, hkind, hkind']
    at hcard' hshared hshared'
  exact
    { changes := by
        intro x hx
        rcases List.mem_cons.mp hx with rfl | hx
        · exact htarget
        · exact List.mem_singleton.mp hx ▸ hsource
      reads := fun x hx => by cases hx
      proper := by
        rw [sdiff_pair_list]
        exact
          { changed := fun x hx hmem => by
              obtain ⟨hx', hmem⟩ := Finset.mem_erase.mp hmem
              obtain ⟨hx'', -⟩ := Finset.mem_erase.mp hmem
              rcases List.mem_cons.mp hx with rfl | hx
              · exact hx'' rfl
              · exact hx' (List.mem_singleton.mp hx)
            gain := fun x hx => by
              rw [hgain x hx]
              exact ⟨List.mem_cons_self, hkind⟩
            kind := by split_ifs <;> cases k <;> simp [Kind.dec]
            locks := by split_ifs <;> cases k <;> simp [Kind.dec]
            expects := by split_ifs <;> cases k <;> simp [Kind.dec]
            incShared := fun hinc => absurd hinc (hphase (by simp) (by cases k <;> simp [Kind.dec]))
            incWeak := fun hinc => absurd hinc (hphase (by simp) (by cases k <;> simp [Kind.dec])) }
      quiet := ⟨hphase (by simp) (by cases k <;> simp [Kind.dec]),
        hphase (by simp) (by cases k <;> simp [Kind.dec])⟩
      weak := by
        rw [sdiff_pair_list, hcard, hcard']
        by_cases hmem : target ∈ s.owners <;> by_cases hmem' : source ∈ s.owners <;> cases k <;>
          simp [Operation.weakHeld, Operation.gains, hmem, hmem', Kind.dec]
      shared := by
        rw [sdiff_pair_list, hshared, hshared']
        by_cases hmem : target ∈ s.owners <;> by_cases hmem' : source ∈ s.owners <;> cases k <;>
          simp [Operation.sharedHeld, Operation.gains, hmem, hmem', Kind.dec] }

omit [DecidableEq Thread] in
theorem begins_lock {target source : I} (htarget : (.shared, target) ∉ s.owners)
    (hsource : (.weak, source) ∈ s.owners) (hchange : canChange s (.shared, target))
    (hread : canRead s (.weak, source)) :
    Begins s ⟨.shared, .load, some (.shared, target), false, [(.shared, target)],
      some (.weak, source)⟩ := by
  have howners : s.owners.erase (.shared, target) = s.owners := Finset.erase_eq_of_notMem htarget
  exact
    { changes := fun x hx => List.mem_singleton.mp hx ▸ hchange
      reads := fun x hx => by
        cases hx
        exact ⟨hread, by simp⟩
      proper := by
        rw [sdiff_singleton_list, howners]
        exact
          { changed := fun x hx => List.mem_singleton.mp hx ▸ htarget
            gain := fun x hx => by
              cases hx
              exact ⟨List.mem_singleton_self _, rfl⟩
            kind := by simp
            locks := fun _ => ⟨rfl, rfl, rfl, (.weak, source), hsource, rfl⟩
            expects := fun c hc => by cases hc
            incShared := fun hinc => by cases hinc
            incWeak := fun hinc => by cases hinc }
      quiet := by simp
      weak := by
        rw [sdiff_singleton_list, howners]
        rfl
      shared := by
        rw [sdiff_singleton_list, howners]
        rfl }

omit [DecidableEq Thread] in
theorem begin_begins {request : Request I} (hbegin : begin s request = some op) :
    Begins s op := by
  cases request with
  | copy target source =>
    rw [begin] at hbegin
    split_ifs at hbegin with hguard
    obtain ⟨hkind, htarget, hsource, hchange, hread⟩ := hguard
    cases hbegin
    refine begins_inc rfl (by simp [htarget]) hchange (fun h => by cases h) ?_
    intro x hx
    cases hx
    refine ⟨fun heq => htarget (heq ▸ hsource), hsource, hread, fun hshared => ?_⟩
    rcases hkind with hkind | hkind
    · rw [hkind, hshared]
    · exact hkind
  | move target source =>
    rw [begin] at hbegin
    split_ifs at hbegin with hguard
    obtain ⟨hkind, htarget, hsource, hchange, hchange'⟩ := hguard
    cases hbegin
    have hne : source ≠ target := fun heq => htarget (heq ▸ hsource)
    have hmove := begins_move (s := s) false hne rfl hkind hchange hchange'
    rwa [if_neg htarget, if_pos hsource] at hmove
  | assign target source =>
    rw [begin] at hbegin
    split_ifs at hbegin with heq hguard hguard hsource htarget
    · cases hbegin
      exact begins_inc rfl (by simp [hguard.1]) hguard.2 (fun _ => rfl) (fun x hx => by cases hx)
    · cases hbegin
      refine begins_inc rfl rfl hguard.2.1 (fun h => by cases h) ?_
      intro x hx
      cases hx
      exact ⟨heq, hsource, hguard.2.2, fun hshared => hguard.1.trans hshared⟩
    · cases hbegin
      refine begins_dec rfl htarget hguard.2.1 ?_
      intro x hx
      cases hx
      exact ⟨heq, hguard.2.2⟩
  | moveAssign target source =>
    rw [begin] at hbegin
    by_cases heq : source = target
    · rw [if_pos heq] at hbegin
      split_ifs at hbegin with hguard
      cases hbegin
      exact begins_dec rfl hguard.1 hguard.2 (fun x hx => by cases hx)
    · rw [if_neg heq] at hbegin
      by_cases hguard : source.1 = target.1 ∧ canChange s target ∧ canChange s source
      · rw [if_pos hguard] at hbegin
        cases hbegin
        exact begins_move _ heq rfl hguard.1 hguard.2.1 hguard.2.2
      · rw [if_neg hguard] at hbegin
        cases hbegin
  | reset target =>
    rw [begin] at hbegin
    split_ifs at hbegin with hguard
    cases hbegin
    exact begins_dec rfl hguard.1 hguard.2 (fun x hx => by cases hx)
  | lock target source =>
    rw [begin] at hbegin
    split_ifs at hbegin with hguard
    obtain ⟨htarget, hsource, hchange, hread⟩ := hguard
    cases hbegin
    exact begins_lock htarget hsource hchange hread

theorem Counted.begin (h : Counted s) (hbegin : Begins s op) {operations}
    (hemplace : s.operations.emplace t op = some operations) :
    Counted { s with
      owners := s.owners \ op.changes.toFinset
      operations := operations } := by
  have hfind := DenseTable.find_emplace hemplace
  have hrow : ∀ {t' op'}, s.operations.find t' = some op' → (t', op') ∈ s.operations.rows :=
    DenseTable.find_eq_some_iff.mp
  exact
    { shared := by
        have hsum := DenseTable.sum_emplace (f := fun _ op => op.sharedHeld) hemplace
        have := h.shared
        have := hbegin.shared
        dsimp only at hsum ⊢
        omega
      weak := by
        have hsum := DenseTable.sum_emplace (f := fun _ op => op.weakHeld) hemplace
        have := h.weak
        have := hbegin.weak
        dsimp only at hsum ⊢
        omega
      destruct := by
        have hsum := DenseTable.sum_emplace
          (f := fun _ (op : Operation I) => if op.phase = .destruct then 1 else 0) hemplace
        rw [if_neg hbegin.quiet.1] at hsum
        have := h.destruct
        dsimp only at hsum ⊢
        omega
      free := by
        have hsum := DenseTable.sum_emplace
          (f := fun _ (op : Operation I) => if op.phase = .free then 1 else 0) hemplace
        rw [if_neg hbegin.quiet.2] at hsum
        have := h.free
        dsimp only at hsum ⊢
        omega
      proper := by
        intro t' op' hop
        rw [hfind] at hop
        split_ifs at hop
        · cases hop
          exact hbegin.proper
        · have hproper := h.proper t' op' hop
          refine hproper.of_owners
            (fun x hx hmem => hproper.changed x hx (Finset.mem_sdiff.mp hmem).1)
            (fun x hx hsource => Finset.mem_sdiff.mpr ⟨hx, fun hmem => ?_⟩)
          exact (hbegin.changes x (List.mem_toFinset.mp hmem) _ (hrow hop)).2 hsource
      disjoint := by
        intro t₁ t₂ op₁ op₂ h₁ h₂ hne x hx
        rw [hfind] at h₁ h₂
        split_ifs at h₁ h₂ with ht₁ ht₂ ht₂
        · exact absurd (ht₁.trans ht₂.symm) hne
        · cases h₁
          exact (hbegin.changes x hx _ (hrow h₂)).1
        · cases h₂
          exact fun hx' => (hbegin.changes x hx' _ (hrow h₁)).1 hx
        · exact h.disjoint t₁ t₂ op₁ op₂ h₁ h₂ hne x hx
      reads := by
        intro t₁ t₂ op₁ op₂ h₁ h₂ x hx
        rw [hfind] at h₁ h₂
        split_ifs at h₁ h₂
        · cases h₁
          cases h₂
          exact (hbegin.reads x hx).2
        · cases h₁
          exact (hbegin.reads x hx).1 _ (hrow h₂)
        · cases h₂
          exact fun hx' => (hbegin.changes x hx' _ (hrow h₁)).2 hx
        · exact h.reads t₁ t₂ op₁ op₂ h₁ h₂ x hx }

/-! ## Runs -/

/-- No step is a misuse, and every step leaves the counts right. -/
theorem Counted.step (h : Counted s) (action : Action Thread I) :
    ∃ s', step s action = .ok s' ∧ Counted s' := by
  cases action with
  | begin t request =>
    rw [SharedPointer.step]
    cases hbegin : SharedPointer.begin s request with
    | none => exact ⟨s, rfl, h⟩
    | some op =>
      dsimp only
      cases hemplace : s.operations.emplace t op with
      | none => exact ⟨s, rfl, h⟩
      | some operations => exact ⟨_, rfl, h.begin (begin_begins hbegin) hemplace⟩
  | advance t =>
    rw [SharedPointer.step]
    cases hop : s.operations.find t with
    | none => exact ⟨s, rfl, h⟩
    | some op =>
      dsimp only
      by_cases hphase : op.phase = .finish
      · rw [if_pos hphase]
        exact ⟨_, rfl, h.finish hop hphase⟩
      · obtain ⟨s', op', hadvance, -, -, hcounted⟩ := h.advances hop hphase
        rw [if_neg hphase, hadvance]
        exact ⟨_, rfl, hcounted⟩

end Counted

/-- Between operations the counts are the numbers of handles. The object is destructed once,
and the block is freed once after that. -/
theorem handles_counted [DecidableEq I] (creator : I) (actions : List (Action Thread I)) :
    ∃ s : State Thread I, runAll step (.initial creator) actions = .ok s ∧
      (s.operations.rows = [] → s.sharedCount = (sharedOf s.owners).card ∧
        s.weakCount = s.owners.card ∧ (s.destructed = 1 ↔ sharedOf s.owners = ∅) ∧
        (s.freed = 1 ↔ s.owners = ∅)) ∧
      s.destructed ≤ 1 ∧ (s.destructed = 1 → sharedOf s.owners = ∅) ∧
      s.freed ≤ 1 ∧ (s.freed = 1 → s.destructed = 1 ∧ s.owners = ∅) ∧
      ∀ i, (.shared, i) ∈ s.owners → s.destructed = 0 ∧
        ∀ t op, s.operations.find t = some op → op.phase ≠ .destruct := by
  obtain ⟨s, hrun, h⟩ := runAll_ok (Counted.initial creator) (fun h a => h.step a) actions
  have hdestruct := h.destruct
  have hfree := h.free
  have hnone : s.destructed = 1 → sharedOf s.owners = ∅ := by
    intro hone
    by_contra hne
    obtain ⟨x, hx⟩ := Finset.nonempty_iff_ne_empty.mpr hne
    have hpos := h.shared_pos hx
    rw [if_neg (by omega)] at hdestruct
    omega
  have hgone : s.freed = 1 → s.owners = ∅ := by
    intro hone
    by_contra hne
    obtain ⟨x, hx⟩ := Finset.nonempty_iff_ne_empty.mpr hne
    have := h.freed_eq (h.weak_pos hx)
    omega
  refine ⟨s, hrun, fun hquiet => ?_, ?_, hnone, ?_, fun hone => ⟨?_, hgone hone⟩, ?_⟩
  · have hsum : ∀ f : Thread → Operation I → ℕ, s.operations.sum f = 0 := fun f => by
      rw [DenseTable.sum, hquiet]
      rfl
    have hshared := h.shared
    have hweak := h.weak
    rw [hsum, add_zero] at hshared hweak hdestruct hfree
    refine ⟨hshared, hweak, ⟨hnone, fun hempty => ?_⟩, ⟨hgone, fun hempty => ?_⟩⟩
    · exact hdestruct.trans (if_pos (by rw [hshared, hempty]; rfl))
    · exact hfree.trans (if_pos (by rw [hweak, hempty]; rfl))
  · split_ifs at hdestruct <;> omega
  · split_ifs at hfree <;> omega
  · refine (h.destructed_of_weak ?_).2
    by_contra hne
    rw [if_neg hne] at hfree
    omega
  · intro i hi
    have hpos := h.shared_pos (Finset.mem_filter.mpr ⟨hi, rfl⟩)
    refine ⟨?_, fun t op hop hphase => ?_⟩
    · rw [if_neg (by omega)] at hdestruct
      omega
    · have := (h.destructed_eq hop hphase).2
      omega

end Fimbulwinter.SharedPointer
