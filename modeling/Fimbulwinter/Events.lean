import Mathlib.Algebra.Group.Nat.Defs
import Mathlib.Data.List.Nodup
import Mathlib.Data.List.Basic
import Fimbulwinter.TransitionRuns

/-! # `core::sync::Event`

The build with `pthread`. Each critical section is a step; the threads that wait on the condition
are a list, of which a notification takes any one. -/
namespace Fimbulwinter.Events

/-- `timespec` -/
structure Timespec where
  sec : ℕ
  nsec : ℕ

def Timespec.nanoseconds (t : Timespec) : ℕ := t.sec * 10 ^ 9 + t.nsec

/-- What `clock_gettime` gives. -/
structure Clock extends Timespec where
  nsec_lt : nsec < 10 ^ 9

/-- The deadline that is waited for, and the time that was asked for. -/
structure Wait where
  deadline : Timespec
  want : ℕ

structure Waiter (T : Type) where
  thread : T
  wait : Option Wait

/-- The event, its waiters, and what they have returned. A set is numbered from the first one; an
initial state is one, too. -/
structure State (T : Type) where
  isSet : Bool
  sets : ℕ
  current : ℕ
  /-- The sets that have been consumed by automatic resets. -/
  consumed : List ℕ
  blocked : List (Waiter T)
  /-- The threads that have yet to look at the event again. -/
  woken : List (Waiter T)
  /-- The times that were asked for, of threads whose deadline has passed, with the times then. -/
  timedOut : List (T × ℕ × ℕ)
  /-- The times that were asked for, where the answer was no, with the times then. -/
  failed : List (ℕ × ℕ)

inductive Action (T : Type)
  | set (notified : ℕ)
  | reset
  | wait (t : T)
  | waitFor (t : T) (milliseconds : ℕ) (clock : Option Clock) (time : ℕ)
  | recheck (i time : ℕ)
  | spurious (i : ℕ)
  | timeout (i time : ℕ)
  | giveUp (i : ℕ)

/-- A step that cannot be taken. -/
inductive Disabled
  | disabled

variable {T : Type}

def State.initial (initialState : Bool) : State T :=
  ⟨initialState, if initialState then 1 else 0, 0, [], [], [], [], []⟩

variable (manualReset : Bool)

/-- A wait that finds the event set. -/
def consume (s : State T) : State T :=
  if manualReset then s else { s with isSet := false, consumed := s.current :: s.consumed }

/-- The loop of a wait; `pthread_cond_timedwait` refuses a deadline that is not normalised. -/
def look (s : State T) (w : Waiter T) (time : ℕ) : State T :=
  if s.isSet then consume manualReset s
  else
    match w.wait with
    | none => { s with blocked := s.blocked ++ [w] }
    | some x =>
      if 10 ^ 9 ≤ x.deadline.nsec then { s with failed := (x.want, time) :: s.failed }
      else { s with blocked := s.blocked ++ [w] }

/-- `notify_one` -/
def notifyOne (s : State T) (i : ℕ) : Except Disabled (State T) :=
  if s.blocked.isEmpty then .ok s
  else
    match s.blocked[i]? with
    | none => .error .disabled
    | some w => .ok { s with blocked := s.blocked.eraseIdx i, woken := w :: s.woken }

/-- The deadline of `wait(milliseconds)`. -/
def deadline (now : Timespec) (milliseconds : ℕ) : Timespec :=
  ⟨now.sec + milliseconds / 1000, now.nsec + milliseconds % 1000 * 1000 * 1000⟩

def State.busy [DecidableEq T] (s : State T) (t : T) : Bool :=
  (s.blocked ++ s.woken).any (fun w => w.thread = t) || s.timedOut.any fun p => p.1 = t

def step [DecidableEq T] (s : State T) : Action T → Except Disabled (State T)
  | .set i => notifyOne { s with isSet := true, current := s.sets, sets := s.sets + 1 } i
  | .reset => if manualReset then .ok { s with isSet := false } else .error .disabled
  | .wait t => if s.busy t then .error .disabled else .ok (look manualReset s ⟨t, none⟩ 0)
  | .waitFor t milliseconds clock time =>
    if s.busy t then .error .disabled
    else
      match clock with
      -- without a clock the answer is no, and there is no deadline
      | none => .ok s
      | some now => .ok (look manualReset s ⟨t, some ⟨deadline now.toTimespec milliseconds,
          now.nanoseconds + milliseconds * 10 ^ 6⟩⟩ time)
  | .recheck i time =>
    match s.woken[i]? with
    | none => .error .disabled
    | some w => .ok (look manualReset { s with woken := s.woken.eraseIdx i } w time)
  | .spurious i =>
    match s.blocked[i]? with
    | none => .error .disabled
    | some w => .ok { s with blocked := s.blocked.eraseIdx i, woken := w :: s.woken }
  | .timeout i time =>
    match s.blocked[i]? with
    | none => .error .disabled
    | some w =>
      match w.wait with
      | none => .error .disabled
      | some x =>
        if time < x.deadline.nanoseconds then .error .disabled
        else .ok { s with
          blocked := s.blocked.eraseIdx i
          timedOut := (w.thread, x.want, time) :: s.timedOut }
  | .giveUp i =>
    match s.timedOut[i]? with
    | none => .error .disabled
    | some p => .ok { s with timedOut := s.timedOut.eraseIdx i, failed := p.2 :: s.failed }

/-! ## What should hold -/

/-- A deadline is normalised and the time that was asked for. -/
def Exact (w : Waiter T) : Prop :=
  ∀ x, w.wait = some x → x.deadline.nsec < 10 ^ 9 ∧ x.deadline.nanoseconds = x.want

structure Good (s : State T) : Prop where
  wakes : s.isSet = true → s.woken = [] → s.blocked = []
  distinct : manualReset = false → s.consumed.Nodup ∧ ∀ n ∈ s.consumed, n < s.sets
  deadlines : ∀ w ∈ s.blocked ++ s.woken, Exact w
  passed : ∀ p ∈ s.failed, p.1 ≤ p.2

/-- With automatic reset a set is consumed by a step that resets the event. -/
def Consumes (s t : State T) : Prop :=
  manualReset = false → t.consumed = s.consumed ∨
    (s.isSet = true ∧ t.isSet = false ∧ s.current ∉ s.consumed ∧
      t.consumed = s.current :: s.consumed)

/-- A manual event is set with at most one blocked thread, and the nanoseconds of a deadline that is
waited for do not carry. -/
def Careful (s : State T) : Action T → Prop
  | .set _ => manualReset = true → s.blocked.length ≤ 1
  | .waitFor _ milliseconds (some now) _ =>
    s.isSet = true ∨ now.nsec + milliseconds % 1000 * 1000 * 1000 < 10 ^ 9
  | _ => True

/-! ## The invariant -/

structure Kept (s : State T) : Prop where
  manual : manualReset = true → s.isSet = true → s.blocked = []
  wakes : s.isSet = true → s.woken = [] → s.blocked = []
  nodup : s.consumed.Nodup
  lt : ∀ n ∈ s.consumed, n < s.sets
  current : s.isSet = true → s.current < s.sets ∧ s.current ∉ s.consumed
  blocked : ∀ w ∈ s.blocked, Exact w
  woken : ∀ w ∈ s.woken, Exact w
  timedOut : ∀ p ∈ s.timedOut, p.2.1 ≤ p.2.2
  passed : ∀ p ∈ s.failed, p.1 ≤ p.2

variable {manualReset} {s t : State T}

theorem Kept.good (h : Kept manualReset s) : Good manualReset s where
  wakes := h.wakes
  distinct _ := ⟨h.nodup, h.lt⟩
  deadlines w hw := (List.mem_append.mp hw).elim (h.blocked w) (h.woken w)
  passed := h.passed

theorem Kept.initial (initialState : Bool) :
    Kept manualReset (State.initial initialState : State T) where
  manual _ _ := rfl
  wakes _ _ := rfl
  nodup := List.nodup_nil
  lt _ hn := absurd hn List.not_mem_nil
  current hset := by
    cases initialState with
    | false => cases hset
    | true => exact ⟨Nat.one_pos, List.not_mem_nil⟩
  blocked _ hw := absurd hw List.not_mem_nil
  woken _ hw := absurd hw List.not_mem_nil
  timedOut _ hp := absurd hp List.not_mem_nil
  passed _ hp := absurd hp List.not_mem_nil

theorem look_of_set (h : s.isSet = true) (w : Waiter T) (time : ℕ) :
    look manualReset s w time = consume manualReset s := if_pos h

theorem look_of_not_set (h : s.isSet = false) {w : Waiter T} (hw : Exact w) (time : ℕ) :
    look manualReset s w time = { s with blocked := s.blocked ++ [w] } := by
  rw [look, if_neg (by rw [h]; exact Bool.false_ne_true)]
  cases hwait : w.wait with
  | none => rfl
  | some x => exact if_neg (Nat.not_le.mpr (hw x hwait).1)

/-- A look at the event, by a thread that is woken no more, or was not blocked. -/
theorem Kept.look (h : Kept manualReset s) {woken : List (Waiter T)} {w : Waiter T}
    (hwoken : ∀ v ∈ woken, Exact v) (hw : s.isSet = false → Exact w) (time : ℕ) :
    Kept manualReset (look manualReset { s with woken := woken } w time) ∧
      Consumes manualReset s (look manualReset { s with woken := woken } w time) := by
  rcases Bool.eq_false_or_eq_true s.isSet with hset | hset
  · rw [look_of_set (s := { s with woken := woken }) hset]
    obtain ⟨hlt, hnew⟩ := h.current hset
    cases manualReset with
    | true =>
      exact ⟨{ h with woken := hwoken, wakes := fun _ _ => h.manual rfl hset },
        fun hauto => (nomatch hauto)⟩
    | false =>
      refine ⟨{
        manual := fun hmanual => absurd hmanual Bool.false_ne_true
        wakes := fun hset' => absurd hset' Bool.false_ne_true
        nodup := List.nodup_cons.mpr ⟨hnew, h.nodup⟩
        lt := fun n hn => ?_
        current := fun hset' => absurd hset' Bool.false_ne_true
        blocked := h.blocked
        woken := hwoken
        timedOut := h.timedOut
        passed := h.passed }, fun _ => .inr ⟨hset, rfl, hnew, rfl⟩⟩
      obtain rfl | hn := List.mem_cons.mp hn
      · exact hlt
      · exact h.lt n hn
  · have hexact := hw hset
    rw [look_of_not_set (s := { s with woken := woken }) hset hexact]
    exact ⟨{ h with
      manual := fun _ hset' => absurd (hset.symm.trans hset') Bool.false_ne_true
      wakes := fun hset' => absurd (hset.symm.trans hset') Bool.false_ne_true
      blocked := fun v hv => (List.mem_append.mp hv).elim (h.blocked v) fun hv =>
        List.mem_singleton.mp hv ▸ hexact
      woken := hwoken }, fun _ => .inl rfl⟩

/-- A notification of a thread that is blocked, or of none. -/
theorem notifyOne_cases {i : ℕ} (h : notifyOne s i = .ok t) :
    (s.blocked = [] ∧ t = s) ∨ ∃ w ∈ s.blocked,
      t = { s with blocked := s.blocked.eraseIdx i, woken := w :: s.woken } ∧
        i < s.blocked.length := by
  rw [notifyOne] at h
  split_ifs at h with hempty
  · cases h
    exact .inl ⟨List.isEmpty_iff.mp hempty, rfl⟩
  · cases hi : s.blocked[i]? with
    | none =>
      rw [hi] at h
      cases h
    | some w =>
      rw [hi] at h
      cases h
      obtain ⟨hlt, -⟩ := List.getElem?_eq_some_iff.mp hi
      exact .inr ⟨w, List.mem_of_getElem? hi, rfl, hlt⟩

theorem Kept.set (h : Kept manualReset s) {i : ℕ}
    (hcareful : manualReset = true → s.blocked.length ≤ 1)
    (ht : notifyOne { s with isSet := true, current := s.sets, sets := s.sets + 1 } i = .ok t) :
    Kept manualReset t ∧ t.consumed = s.consumed := by
  have hcurrent : s.sets < s.sets + 1 ∧ s.sets ∉ s.consumed :=
    ⟨Nat.lt_succ_self _, fun hmem => Nat.lt_irrefl _ (h.lt _ hmem)⟩
  obtain ⟨hempty, rfl⟩ | ⟨w, hw, rfl, hi⟩ := notifyOne_cases ht
  · have hempty' : s.blocked = [] := hempty
    exact ⟨{ h with
      manual := fun _ _ => hempty'
      wakes := fun _ _ => hempty'
      lt := fun n hn => Nat.lt_succ_of_lt (h.lt n hn)
      current := fun _ => hcurrent }, rfl⟩
  · have hi' : i < s.blocked.length := hi
    exact ⟨{ h with
      manual := fun hmanual _ => by
        refine List.length_eq_zero_iff.mp ?_
        have := hcareful hmanual
        change (s.blocked.eraseIdx i).length = 0
        rw [List.length_eraseIdx_of_lt hi']
        omega
      wakes := fun _ hnone => absurd hnone (List.cons_ne_nil _ _)
      lt := fun n hn => Nat.lt_succ_of_lt (h.lt n hn)
      current := fun _ => hcurrent
      blocked := fun v hv => h.blocked v (List.mem_of_mem_eraseIdx hv)
      woken := fun v hv => (List.mem_cons.mp hv).elim (fun heq => heq ▸ h.blocked w hw)
        (h.woken v) }, rfl⟩

theorem deadline_exact (now : Timespec) (milliseconds : ℕ) :
    (deadline now milliseconds).nanoseconds = now.nanoseconds + milliseconds * 10 ^ 6 := by
  unfold deadline Timespec.nanoseconds
  dsimp only
  omega

/-- A step of a thread that is careful. -/
theorem Kept.step [DecidableEq T] (h : Kept manualReset s) {a : Action T}
    (hcareful : Careful manualReset s a) (ht : step manualReset s a = .ok t) :
    Kept manualReset t ∧ Consumes manualReset s t := by
  cases a with
  | set i =>
    obtain ⟨hkept, hconsumed⟩ := h.set hcareful ht
    exact ⟨hkept, fun _ => .inl hconsumed⟩
  | reset =>
    rw [Events.step] at ht
    split_ifs at ht
    cases ht
    exact ⟨{ h with
      manual := fun _ hset => absurd hset Bool.false_ne_true
      wakes := fun hset => absurd hset Bool.false_ne_true
      current := fun hset => absurd hset Bool.false_ne_true }, fun _ => .inl rfl⟩
  | wait thread =>
    rw [Events.step] at ht
    split_ifs at ht
    cases ht
    exact h.look h.woken (fun _ x hx => by cases hx) 0
  | waitFor thread milliseconds clock time =>
    cases clock with
    | none =>
      rw [Events.step] at ht
      split_ifs at ht
      cases ht
      exact ⟨h, fun _ => .inl rfl⟩
    | some now =>
      rw [Events.step] at ht
      split_ifs at ht
      cases ht
      refine h.look h.woken (fun hset x hx => ?_) time
      cases hx
      refine ⟨?_, deadline_exact _ _⟩
      exact hcareful.resolve_left fun hset' => Bool.false_ne_true (hset.symm.trans hset')
  | recheck i time =>
    rw [Events.step] at ht
    cases hi : s.woken[i]? with
    | none =>
      rw [hi] at ht
      cases ht
    | some w =>
      rw [hi] at ht
      cases ht
      exact h.look (fun v hv => h.woken v (List.mem_of_mem_eraseIdx hv))
        (fun _ => h.woken w (List.mem_of_getElem? hi)) time
  | spurious i =>
    rw [Events.step] at ht
    cases hi : s.blocked[i]? with
    | none =>
      rw [hi] at ht
      cases ht
    | some w =>
      rw [hi] at ht
      cases ht
      have hw : w ∈ s.blocked := List.mem_of_getElem? hi
      exact ⟨{ h with
        manual := fun hmanual hset => absurd (h.manual hmanual hset) (List.ne_nil_of_mem hw)
        wakes := fun _ hnone => absurd hnone (List.cons_ne_nil _ _)
        blocked := fun v hv => h.blocked v (List.mem_of_mem_eraseIdx hv)
        woken := fun v hv => (List.mem_cons.mp hv).elim (fun heq => heq ▸ h.blocked w hw)
          (h.woken v) }, fun _ => .inl rfl⟩
  | timeout i time =>
    rw [Events.step] at ht
    cases hi : s.blocked[i]? with
    | none =>
      rw [hi] at ht
      cases ht
    | some w =>
      rw [hi] at ht
      have hw : w ∈ s.blocked := List.mem_of_getElem? hi
      cases hx : w.wait with
      | none =>
        simp only [hx] at ht
        cases ht
      | some x =>
        simp only [hx] at ht
        split_ifs at ht with hearly
        cases ht
        exact ⟨{ h with
          manual := fun hmanual hset => absurd (h.manual hmanual hset) (List.ne_nil_of_mem hw)
          wakes := fun hset hnone => absurd (h.wakes hset hnone) (List.ne_nil_of_mem hw)
          blocked := fun v hv => h.blocked v (List.mem_of_mem_eraseIdx hv)
          timedOut := fun p hp => (List.mem_cons.mp hp).elim
            (fun heq => heq ▸ (h.blocked w hw x hx).2 ▸ Nat.le_of_not_lt hearly)
            (h.timedOut p) }, fun _ => .inl rfl⟩
  | giveUp i =>
    rw [Events.step] at ht
    cases hi : s.timedOut[i]? with
    | none =>
      rw [hi] at ht
      cases ht
    | some p =>
      rw [hi] at ht
      cases ht
      exact ⟨{ h with
        timedOut := fun q hq => h.timedOut q (List.mem_of_mem_eraseIdx hq)
        passed := fun q hq => (List.mem_cons.mp hq).elim
          (fun heq => heq ▸ h.timedOut p (List.mem_of_getElem? hi)) (h.passed q) },
        fun _ => .inl rfl⟩

end Fimbulwinter.Events
