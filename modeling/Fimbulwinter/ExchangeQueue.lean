import Fimbulwinter.ObjectStorage
import Fimbulwinter.TransitionRuns
import Mathlib.Data.List.ReduceOption

/-! # `core::container::ExchangeQueueSRSW`

One writer and one reader hand over the latest item through three slots. Every
exchange of an index, every access of a flag and every construction, move and
destruction of an item is a step of its own. -/
namespace Fimbulwinter.ExchangeQueue

variable {T : Type*}

/-- The steps that are left of `try_push`. -/
inductive Writer (T : Type*)
  | idle
  | construct (item : T)
  | exchange (item : T)
  | test
  | destruct
  deriving DecidableEq, Repr

/-- The steps that are left of `try_pop`. -/
inductive Reader (T : Type*)
  | idle
  | test
  | move
  | reset (item : T)
  | destruct (item : T)
  deriving DecidableEq, Repr

/-- What has happened to the index that both sides exchange. -/
inductive Exchange (T : Type*)
  | push (item : T)
  | pop
  deriving DecidableEq, Repr

/-- A queue with its two users. -/
structure State (T : Type*) where
  lasti : Fin 3
  readi : Fin 3
  writei : Fin 3
  writebits : Fin 3 → Bool
  buffer : ObjectStorage (Fin 3) T
  writer : Writer T
  reader : Reader T
  /-- The items of all calls of `try_push`. -/
  calls : List T
  exchanges : List (Exchange T)
  /-- What the calls of `try_pop` have returned. -/
  results : List (Option T)

def State.initial : State T where
  lasti := 0
  readi := 1
  writei := 2
  writebits := fun _ => false
  buffer := .raw
  writer := .idle
  reader := .idle
  calls := []
  exchanges := []
  results := []

/-- The first step of a `try_push`, and the next step of the writer and of the reader. -/
inductive Action (T : Type*)
  | push (item : T)
  | write
  | read
  deriving DecidableEq, Repr

/-- One step of `try_push`. -/
def write (s : State T) : Except Misuse (State T) :=
  match s.writer with
  | .idle => .ok s
  | .construct item =>
    match s.buffer.construct s.writei item with
    | .error e => .error e
    | .ok buffer => .ok { s with buffer := buffer, writer := .exchange item }
  | .exchange item =>
    .ok { s with
      lasti := s.writei, writei := s.lasti, writer := .test
      exchanges := s.exchanges ++ [.push item] }
  | .test => .ok { s with writer := if s.writebits s.writei then .destruct else .idle }
  | .destruct =>
    match s.buffer.destruct s.writei with
    | .error e => .error e
    | .ok buffer => .ok { s with buffer := buffer, writer := .idle }

/-- One step of `try_pop`. -/
def read (s : State T) : Except Misuse (State T) :=
  match s.reader with
  | .idle =>
    .ok { s with
      lasti := s.readi, readi := s.lasti, reader := .test, exchanges := s.exchanges ++ [.pop] }
  | .test =>
    if s.writebits s.readi then .ok { s with reader := .move }
    else .ok { s with reader := .idle, results := s.results ++ [none] }
  | .move =>
    match s.buffer.read s.readi with
    | .error e => .error e
    | .ok item => .ok { s with reader := .reset item }
  | .reset item =>
    .ok { s with
      writebits := Function.update s.writebits s.readi false, reader := .destruct item }
  | .destruct item =>
    match s.buffer.destruct s.readi with
    | .error e => .error e
    | .ok buffer =>
      .ok { s with buffer := buffer, reader := .idle, results := s.results ++ [some item] }

/-- A step; a push waits for the one before it. -/
def step (s : State T) : Action T → Except Misuse (State T)
  | .push item =>
    match s.writer with
    | .idle =>
      .ok { s with
        writebits := Function.update s.writebits s.writei true, writer := .construct item
        calls := s.calls ++ [item] }
    | _ => .ok s
  | .write => write s
  | .read => read s

/-! ## What the exchanges hand over -/

/-- The items of the pushes, in their order. -/
def pushes : List (Exchange T) → List T
  | [] => []
  | .push item :: exchanges => item :: pushes exchanges
  | .pop :: exchanges => pushes exchanges

/-- The item of the latest push, unless it has been popped since. -/
def unread : Option T → List (Exchange T) → Option T
  | item, [] => item
  | _, .push item :: exchanges => unread (some item) exchanges
  | _, .pop :: exchanges => unread none exchanges

/-- Every pop returns the item that is unread. -/
def answers : Option T → List (Exchange T) → List (Option T)
  | _, [] => []
  | _, .push item :: exchanges => answers (some item) exchanges
  | item, .pop :: exchanges => item :: answers none exchanges

@[simp] theorem pushes_append (xs ys : List (Exchange T)) :
    pushes (xs ++ ys) = pushes xs ++ pushes ys := by
  induction xs with
  | nil => rfl
  | cons x xs ih => cases x <;> simp [pushes, ih]

@[simp] theorem unread_append (item : Option T) (xs ys : List (Exchange T)) :
    unread item (xs ++ ys) = unread (unread item xs) ys := by
  induction xs generalizing item with
  | nil => rfl
  | cons x xs ih => cases x <;> simp [unread, ih]

@[simp] theorem answers_append (item : Option T) (xs ys : List (Exchange T)) :
    answers item (xs ++ ys) = answers item xs ++ answers (unread item xs) ys := by
  induction xs generalizing item with
  | nil => rfl
  | cons x xs ih => cases x <;> simp [answers, unread, ih]

/-- Every push is returned at most once, and in the order of the pushes. -/
theorem answers_sublist (item : Option T) (xs : List (Exchange T)) :
    (answers item xs).reduceOption.Sublist (item.toList ++ pushes xs) := by
  induction xs generalizing item with
  | nil => simp [answers]
  | cons x xs ih =>
    cases x with
    | push y => exact (ih (some y)).trans (List.sublist_append_right _ _)
    | pop =>
      cases item with
      | none => exact ih none
      | some y => exact (ih none).cons_cons y

/-! ## Slots and flags -/

/-- The writer's flag and slot in each of its steps. -/
def Writer.Owns (flag : Bool) (slot : Option T) : Writer T → Prop
  | .idle => slot = none
  | .construct _ => flag = true ∧ slot = none
  | .exchange item => flag = true ∧ slot = some item
  | .test => flag = slot.isSome
  | .destruct => slot.isSome

/-- The item that the writer has not exchanged yet. -/
def Writer.item : Writer T → List T
  | .construct item | .exchange item => [item]
  | .idle | .test | .destruct => []

/-- The reader's flag and slot in each of its steps, and the answer it has taken. -/
def Reader.Owns (flag : Bool) (slot : Option T) (answer : List (Option T)) : Reader T → Prop
  | .idle => flag = false ∧ slot = none ∧ answer = []
  | .test => flag = slot.isSome ∧ answer = [slot]
  | .move => slot.isSome ∧ answer = [slot]
  | .reset item => slot.isSome ∧ answer = [some item]
  | .destruct item => flag = false ∧ slot.isSome ∧ answer = [some item]

/-- Three different slots: one of the writer, one of the reader, and one in between, which
holds the unread item. -/
structure Shared (s : State T) : Prop where
  read_ne : s.lasti ≠ s.readi
  write_ne : s.lasti ≠ s.writei
  ne : s.readi ≠ s.writei
  last : s.buffer s.lasti = unread none s.exchanges
  lastbit : s.writebits s.lasti = (s.buffer s.lasti).isSome
  writer : s.writer.Owns (s.writebits s.writei) (s.buffer s.writei)
  called : s.calls = pushes s.exchanges ++ s.writer.item
  reader : ∃ answer, answers none s.exchanges = s.results ++ answer ∧
    s.reader.Owns (s.writebits s.readi) (s.buffer s.readi) answer

theorem Shared.initial : Shared (State.initial : State T) where
  read_ne := (by decide : (0 : Fin 3) ≠ 1)
  write_ne := (by decide : (0 : Fin 3) ≠ 2)
  ne := (by decide : (1 : Fin 3) ≠ 2)
  last := rfl
  lastbit := rfl
  writer := rfl
  called := rfl
  reader := ⟨[], rfl, rfl, rfl, rfl⟩

theorem Shared.push {s : State T} (h : Shared s) (item : T) :
    ∃ s', step s (.push item) = .ok s' ∧ Shared s' := by
  have hwriter := h.writer
  have hcalled := h.called
  simp only [step]
  split
  case h_1 hidle =>
    rw [hidle] at hwriter hcalled
    refine ⟨_, rfl, { h with lastbit := ?_, writer := ?_, called := ?_, reader := ?_ }⟩
    · simpa [Function.update_of_ne h.write_ne] using h.lastbit
    · exact ⟨by simp, hwriter⟩
    · simpa [Writer.item] using hcalled
    · simpa [Function.update_of_ne h.ne] using h.reader
  case h_2 => exact ⟨s, rfl, h⟩

theorem Shared.write {s : State T} (h : Shared s) :
    ∃ s', step s .write = .ok s' ∧ Shared s' := by
  have hwriter := h.writer
  have hcalled := h.called
  simp only [step, ExchangeQueue.write]
  split
  case h_1 => exact ⟨s, rfl, h⟩
  case h_2 item hconstruct =>
    rw [hconstruct] at hwriter hcalled
    obtain ⟨hflag, hslot⟩ := hwriter
    rw [ObjectStorage.construct_of_raw item hslot]
    refine ⟨_, rfl, { h with last := ?_, lastbit := ?_, writer := ?_, called := ?_, reader := ?_ }⟩
    · simpa [Function.update_of_ne h.write_ne] using h.last
    · simpa [Function.update_of_ne h.write_ne] using h.lastbit
    · exact ⟨hflag, by simp⟩
    · exact hcalled
    · simpa [Function.update_of_ne h.ne] using h.reader
  case h_3 item hexchange =>
    rw [hexchange] at hwriter hcalled
    obtain ⟨hflag, hslot⟩ := hwriter
    refine ⟨_, rfl, ?_⟩
    constructor
    · exact h.ne.symm
    · exact h.write_ne.symm
    · exact h.read_ne.symm
    · simp [unread, hslot]
    · simp [hslot, hflag]
    · exact h.lastbit
    · simpa [Writer.item, pushes] using hcalled
    · simpa [answers] using h.reader
  case h_4 htest =>
    rw [htest] at hwriter hcalled
    refine ⟨_, rfl, { h with writer := ?_, called := ?_ }⟩
    · cases hflag : s.writebits s.writei with
      | false =>
        have hraw : (s.buffer s.writei).isSome = false := hwriter.symm.trans hflag
        simpa [Writer.Owns] using hraw
      | true =>
        have hobject : (s.buffer s.writei).isSome = true := hwriter.symm.trans hflag
        simpa [Writer.Owns] using hobject
    · split <;> exact hcalled
  case h_5 hdestruct =>
    rw [hdestruct] at hwriter hcalled
    obtain ⟨item, hslot⟩ := Option.isSome_iff_exists.mp hwriter
    rw [ObjectStorage.destruct_of_some hslot]
    refine ⟨_, rfl, { h with last := ?_, lastbit := ?_, writer := ?_, called := ?_, reader := ?_ }⟩
    · simpa [Function.update_of_ne h.write_ne] using h.last
    · simpa [Function.update_of_ne h.write_ne] using h.lastbit
    · simp [Writer.Owns]
    · exact hcalled
    · simpa [Function.update_of_ne h.ne] using h.reader

theorem Shared.read {s : State T} (h : Shared s) : ∃ s', step s .read = .ok s' ∧ Shared s' := by
  obtain ⟨answer, hanswers, hreader⟩ := h.reader
  simp only [step, ExchangeQueue.read]
  split
  case h_1 hidle =>
    rw [hidle] at hreader
    obtain ⟨hflag, hslot, rfl⟩ := hreader
    refine ⟨_, rfl, ?_⟩
    constructor
    · exact h.read_ne.symm
    · exact h.ne
    · exact h.write_ne
    · simp [unread, hslot]
    · simp [hslot, hflag]
    · exact h.writer
    · simpa [pushes] using h.called
    · refine ⟨[s.buffer s.lasti], ?_, h.lastbit, rfl⟩
      simp only [List.append_nil] at hanswers
      simp [answers, hanswers, h.last]
  case h_2 htest =>
    rw [htest] at hreader
    obtain ⟨hflag, rfl⟩ := hreader
    cases hbit : s.writebits s.readi with
    | true =>
      refine ⟨_, rfl, { h with reader := ⟨_, hanswers, ?_, rfl⟩ }⟩
      exact hflag.symm.trans hbit
    | false =>
      have hraw : s.buffer s.readi = none := by
        simpa using hflag.symm.trans hbit
      refine ⟨_, rfl, { h with reader := ⟨[], ?_, hbit, hraw, rfl⟩ }⟩
      simp [hanswers, hraw]
  case h_3 hmove =>
    rw [hmove] at hreader
    obtain ⟨hobject, rfl⟩ := hreader
    obtain ⟨item, hslot⟩ := Option.isSome_iff_exists.mp hobject
    rw [ObjectStorage.read_of_some hslot]
    exact ⟨_, rfl, { h with reader := ⟨_, hanswers, hobject, by rw [hslot]⟩ }⟩
  case h_4 item hreset =>
    rw [hreset] at hreader
    obtain ⟨hobject, rfl⟩ := hreader
    refine ⟨_, rfl, { h with lastbit := ?_, writer := ?_, reader := ?_ }⟩
    · simpa [Function.update_of_ne h.read_ne] using h.lastbit
    · simpa [Function.update_of_ne h.ne.symm] using h.writer
    · exact ⟨_, hanswers, by simp, hobject, rfl⟩
  case h_5 item hdestruct =>
    rw [hdestruct] at hreader
    obtain ⟨hflag, hobject, rfl⟩ := hreader
    obtain ⟨x, hslot⟩ := Option.isSome_iff_exists.mp hobject
    rw [ObjectStorage.destruct_of_some hslot]
    refine ⟨_, rfl, { h with last := ?_, lastbit := ?_, writer := ?_, reader := ?_ }⟩
    · simpa [Function.update_of_ne h.read_ne] using h.last
    · simpa [Function.update_of_ne h.read_ne] using h.lastbit
    · simpa [Function.update_of_ne h.ne.symm] using h.writer
    · exact ⟨[], by simp [hanswers], hflag, by simp, rfl⟩

theorem Shared.step {s : State T} (h : Shared s) (a : Action T) :
    ∃ s', ExchangeQueue.step s a = .ok s' ∧ Shared s' := by
  cases a with
  | push item => exact h.push item
  | write => exact h.write
  | read => exact h.read

/-- The three indices are a permutation of the slots, every completed push has been
exchanged, and the results of the pops are the items that were unread, each push at most
once. -/
structure HandsOver (s : State T) : Prop where
  permutation : [s.writei, s.readi, s.lasti].Perm [0, 1, 2]
  completed : s.writer = .idle → pushes s.exchanges = s.calls
  latest : ∃ answer, answers none s.exchanges = s.results ++ answer ∧ answer.length ≤ 1 ∧
    (s.reader = .idle → answer = [])
  once : s.results.reduceOption.Sublist (pushes s.exchanges)

theorem Reader.Owns.length_le {flag : Bool} {slot : Option T} {answer : List (Option T)}
    {reader : Reader T} (h : reader.Owns flag slot answer) : answer.length ≤ 1 := by
  cases reader with
  | idle => simp [h.2.2]
  | test => simp [h.2]
  | move => simp [h.2]
  | reset item => simp [h.2]
  | destruct item => simp [h.2.2]

theorem perm_of_ne : ∀ i j k : Fin 3, k ≠ j → k ≠ i → j ≠ i → [i, j, k].Perm [0, 1, 2] := by
  decide

theorem Shared.handsOver {s : State T} (h : Shared s) : HandsOver s := by
  obtain ⟨answer, hanswers, hreader⟩ := h.reader
  constructor
  · exact perm_of_ne _ _ _ h.read_ne h.write_ne h.ne
  · intro hidle
    have hcalled := h.called
    rw [hidle, Writer.item, List.append_nil] at hcalled
    exact hcalled.symm
  · refine ⟨answer, hanswers, hreader.length_le, fun hidle => ?_⟩
    rw [hidle] at hreader
    exact hreader.2.2
  · have hsublist := answers_sublist none s.exchanges
    rw [hanswers, List.reduceOption_append] at hsublist
    exact (List.sublist_append_left _ _).trans hsublist

/-- Whatever the writer and the reader do, no step misuses a slot, and the queue hands over
the latest item. -/
theorem exchangeQueue_handsOver (actions : List (Action T)) :
    ∃ s, runAll step State.initial actions = .ok s ∧ HandsOver s := by
  obtain ⟨s, hrun, hs⟩ := runAll_ok Shared.initial (fun h a => h.step a) actions
  exact ⟨s, hrun, hs.handsOver⟩

end Fimbulwinter.ExchangeQueue
