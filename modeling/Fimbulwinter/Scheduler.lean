import Mathlib.Data.List.Basic
import Mathlib.Logic.Function.Basic
import Mathlib.Tactic.Common

/-! # The task scheduler

One thread executes the work that any number of threads, and the work itself, post to it.
Every operation on the queue and on the event is a step of its own. -/
namespace Fimbulwinter.Scheduler

variable {Thread Item : Type*} [DecidableEq Thread]

/-- `Message`. An item is the strand, the callback and the data of work. -/
inductive Message (Item : Type*)
  | work (item : Item)
  | terminate
  deriving DecidableEq, Repr

/-- Who posts: a thread, or the work that is being executed. -/
abbrev Poster (Thread : Type*) := Option Thread

/-- The steps of `scheduler_thread`. -/
inductive Worker (Item : Type*)
  | wait
  | reset
  | pop
  | execute (item : Item)
  | finished
  deriving DecidableEq, Repr

structure State (Thread Item : Type*) where
  queue : List (Poster Thread × Message Item)
  event : Bool
  worker : Worker Item
  /-- Who has put a message into the queue, but has not set the event yet. -/
  posting : Poster Thread → Bool
  /-- The work that everyone has posted. -/
  posts : Poster Thread → List Item
  /-- What has been taken out of the queue, where work is executed at once. -/
  taken : List (Poster Thread × Message Item)

def State.initial : State Thread Item where
  queue := []
  event := false
  worker := .wait
  posting := fun _ => false
  posts := fun _ => []
  taken := []

inductive Action (Thread Item : Type*)
  /-- The first step of `post_work`. -/
  | post (poster : Poster Thread) (item : Item)
  /-- The first step of `scheduler::destruct`. -/
  | terminate (thread : Thread)
  /-- The second step of both. -/
  | set (poster : Poster Thread)
  /-- A step of the scheduler's thread. -/
  | work
  deriving DecidableEq, Repr

/-- A poster sets the event before it does anything else; work posts while it is executed. -/
def canPost (s : State Thread Item) : Poster Thread → Bool
  | some thread => !s.posting (some thread)
  | none =>
    match s.worker with
    | .execute _ => !s.posting none
    | _ => false

def enqueue (s : State Thread Item) (poster : Poster Thread) (message : Message Item) :
    State Thread Item :=
  { s with
    queue := s.queue ++ [(poster, message)]
    posting := Function.update s.posting poster true }

/-- A step of `scheduler_thread`; nothing happens while it waits for the event. -/
def work (s : State Thread Item) : State Thread Item :=
  match s.worker with
  | .wait => if s.event then { s with worker := .reset } else s
  | .reset => { s with event := false, worker := .pop }
  | .pop =>
    match s.queue with
    | [] => { s with worker := .wait }
    | (poster, .work item) :: queue =>
      { s with
        queue := queue, worker := .execute item, taken := s.taken ++ [(poster, .work item)] }
    | (poster, .terminate) :: queue =>
      { s with
        queue := queue, worker := .finished, taken := s.taken ++ [(poster, .terminate)] }
  | .execute _ => if s.posting none then s else { s with worker := .pop }
  | .finished => s

/-- A step; one that cannot be taken yet changes nothing. -/
def step (s : State Thread Item) : Action Thread Item → State Thread Item
  | .post poster item =>
    if canPost s poster then
      let s := enqueue s poster (.work item)
      { s with posts := Function.update s.posts poster (s.posts poster ++ [item]) }
    else s
  | .terminate thread =>
    if canPost s (some thread) then enqueue s (some thread) .terminate else s
  | .set poster =>
    if s.posting poster then
      { s with event := true, posting := Function.update s.posting poster false }
    else s
  | .work => work s

/-- The states after any interleaving of the steps. -/
def run (actions : List (Action Thread Item)) : State Thread Item :=
  actions.foldl step State.initial

/-- The items of a poster in a sequence of messages. -/
def itemsOf (poster : Poster Thread) (messages : List (Poster Thread × Message Item)) :
    List Item :=
  messages.filterMap fun message =>
    match message.2 with
    | .work item => if message.1 = poster then some item else none
    | .terminate => none

section Items

variable (poster : Poster Thread)

@[simp] theorem itemsOf_nil : itemsOf poster ([] : List (Poster Thread × Message Item)) = [] := rfl

@[simp] theorem itemsOf_append (xs ys : List (Poster Thread × Message Item)) :
    itemsOf poster (xs ++ ys) = itemsOf poster xs ++ itemsOf poster ys :=
  List.filterMap_append

@[simp] theorem itemsOf_terminate (poster' : Poster Thread)
    (xs : List (Poster Thread × Message Item)) :
    itemsOf poster ((poster', .terminate) :: xs) = itemsOf poster xs := rfl

theorem itemsOf_work (poster' : Poster Thread) (item : Item)
    (xs : List (Poster Thread × Message Item)) :
    itemsOf poster ((poster', .work item) :: xs) =
      if poster' = poster then item :: itemsOf poster xs else itemsOf poster xs := by
  unfold itemsOf
  rw [List.filterMap_cons]
  split_ifs <;> rfl

end Items

/-- While there is something in the queue, the worker is not waiting for it, or the event is
set, or somebody is about to set it; and what is taken out and what is left is what has been
posted, in order. -/
structure Sound (s : State Thread Item) : Prop where
  awake : s.queue ≠ [] → s.worker ≠ .wait ∨ s.event = true ∨ ∃ poster, s.posting poster = true
  inOrder : ∀ poster, itemsOf poster s.taken ++ itemsOf poster s.queue = s.posts poster

theorem Sound.initial : Sound (State.initial : State Thread Item) where
  awake := fun h => absurd rfl h
  inOrder := fun _ => rfl

theorem enqueue_awake (s : State Thread Item) (poster : Poster Thread) (message : Message Item) :
    ∃ poster', (enqueue s poster message).posting poster' = true :=
  ⟨poster, Function.update_self ..⟩

theorem Sound.post {s : State Thread Item} (h : Sound s) (poster : Poster Thread) (item : Item) :
    Sound (step s (.post poster item)) := by
  rw [step]
  split_ifs
  · refine ⟨fun _ => .inr (.inr (enqueue_awake s poster (.work item))), fun poster' => ?_⟩
    have hposts := h.inOrder poster'
    by_cases heq : poster' = poster
    · subst heq
      simp [enqueue, itemsOf_work, ← hposts]
    · simp [enqueue, itemsOf_work, Ne.symm heq, Function.update_of_ne heq, ← hposts]
  · exact h

theorem Sound.terminate {s : State Thread Item} (h : Sound s) (thread : Thread) :
    Sound (step s (.terminate thread)) := by
  rw [step]
  split_ifs
  · refine ⟨fun _ => .inr (.inr (enqueue_awake s (some thread) .terminate)), fun poster => ?_⟩
    simpa [enqueue] using h.inOrder poster
  · exact h

theorem Sound.set {s : State Thread Item} (h : Sound s) (poster : Poster Thread) :
    Sound (step s (.set poster)) := by
  rw [step]
  split_ifs
  · exact ⟨fun _ => .inr (.inl rfl), h.inOrder⟩
  · exact h

theorem Sound.work {s : State Thread Item} (h : Sound s) : Sound (step s .work) := by
  rw [step, Scheduler.work]
  split
  case h_1 hwait =>
    split_ifs
    · exact ⟨fun _ => .inl (by simp), h.inOrder⟩
    · exact h
  case h_2 hreset => exact ⟨fun _ => .inl (by simp), h.inOrder⟩
  case h_3 hpop =>
    split
    case h_1 hqueue => exact ⟨fun hne => absurd hqueue hne, h.inOrder⟩
    case h_2 poster item queue hqueue =>
      refine ⟨fun _ => .inl (by simp), fun poster' => ?_⟩
      have hposts := h.inOrder poster'
      rw [hqueue, itemsOf_work] at hposts
      rw [← hposts, itemsOf_append, itemsOf_work]
      split_ifs <;> simp
    case h_3 poster queue hqueue =>
      refine ⟨fun _ => .inl (by simp), fun poster' => ?_⟩
      have hposts := h.inOrder poster'
      rw [hqueue, itemsOf_terminate] at hposts
      simpa using hposts
  case h_4 item hexecute =>
    split_ifs
    · exact h
    · exact ⟨fun _ => .inl (by simp), h.inOrder⟩
  case h_5 hfinished => exact h

theorem Sound.step {s : State Thread Item} (h : Sound s) (a : Action Thread Item) :
    Sound (Scheduler.step s a) := by
  cases a with
  | post poster item => exact h.post poster item
  | terminate thread => exact h.terminate thread
  | set poster => exact h.set poster
  | work => exact h.work

theorem Sound.foldl {s : State Thread Item} (h : Sound s) (actions : List (Action Thread Item)) :
    Sound (actions.foldl Scheduler.step s) := by
  induction actions generalizing s with
  | nil => exact h
  | cons a actions ih => exact ih (h.step a)

/-- In no interleaving does the worker wait for an event that nobody is about to set while
there is work, and everyone's work is taken out in the order in which it has been posted,
nothing twice and nothing left out. -/
theorem scheduler_awake_inOrder (actions : List (Action Thread Item)) :
    ¬ ((run actions).worker = .wait ∧ (run actions).event = false ∧ (run actions).queue ≠ [] ∧
        ∀ poster, (run actions).posting poster = false) ∧
      ∀ poster, itemsOf poster (run actions).taken ++ itemsOf poster (run actions).queue =
        (run actions).posts poster := by
  have h : Sound (run actions) := Sound.initial.foldl actions
  refine ⟨?_, h.inOrder⟩
  rintro ⟨hwait, hevent, hqueue, hposting⟩
  rcases h.awake hqueue with hworker | hset | ⟨poster, hposter⟩
  · exact hworker hwait
  · rw [hset] at hevent
    cases hevent
  · rw [hposting poster] at hposter
    cases hposter

end Fimbulwinter.Scheduler
