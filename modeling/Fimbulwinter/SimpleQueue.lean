import Fimbulwinter.RingBuffer
import Fimbulwinter.TransitionRuns

/-! # `core::container::SimpleQueue`

Any number of producers and one consumer on a ring, where every access to an atomic
index is a step of its own. A producer reserves a slot with a compare-and-swap of the
write index, some time after it has found that the ring is not full. -/
namespace Fimbulwinter.SimpleQueue

variable {P T : Type*} [DecidableEq P]

/-- The steps that are left of `try_push`. -/
inductive Producer (T : Type*)
  | idle
  | loadWrite (item : T)
  | loadRead (item : T) (slot : ℕ)
  | exchange (item : T) (slot next : ℕ)
  | ticket (ticket : Ticket T)
  deriving DecidableEq, Repr

def Producer.toTicket {T : Type*} : Producer T → Option (Ticket T)
  | .ticket t => some t
  | .idle | .loadWrite _ | .loadRead _ _ | .exchange _ _ _ => none

structure State (P T : Type*) where
  ring : Ring P T
  producers : P → Producer T
  consumer : Pop T
  /-- The pushes that have returned true, in the order in which they returned. -/
  pushed : List (P × T)
  /-- The items that pops have returned. -/
  popped : List T

def State.initial (capacity : ℕ) : State P T := ⟨.empty capacity, fun _ => .idle, .idle, [], []⟩

/-- A call of `try_push`, the next step of a producer, whose compare-and-swap may fail without
a reason, and the next step of `try_pop`. -/
inductive Action (P T : Type*)
  | push (p : P) (item : T)
  | produce (p : P) (weak : Bool)
  | consume
  deriving DecidableEq, Repr

def State.set (s : State P T) (p : P) (producer : Producer T) : State P T :=
  { s with producers := Function.update s.producers p producer }

/-- One step of `try_emplace`. -/
def produce (s : State P T) (p : P) (weak : Bool) : Except Misuse (State P T) :=
  match s.producers p with
  | .idle => .ok s
  | .loadWrite item => .ok (s.set p (.loadRead item s.ring.writei))
  | .loadRead item slot =>
    let next := wrapReset (slot + 1) s.ring.capacity
    if s.ring.readi = next then .ok (s.set p .idle) -- full
    else .ok (s.set p (.exchange item slot next))
  | .exchange item slot next =>
    if s.ring.writei = slot ∧ weak = false then
      .ok { s.set p (.ticket (.construct item slot next s.ring.reserved.length)) with
        ring := s.ring.reserve p item next }
    else .ok (s.set p (.loadRead item s.ring.writei))
  | .ticket (.construct item slot next index) =>
    match s.ring.storage.construct slot item with
    | .error e => .error e
    | .ok storage =>
      .ok { s.set p (.ticket (.checkin item slot next index)) with
        ring := { s.ring with storage := storage } }
  | .ticket (.checkin item slot next _) =>
    if s.ring.readendi = slot ∧ weak = false then
      .ok { s.set p .idle with ring := s.ring.publish next, pushed := s.pushed ++ [(p, item)] }
    else .ok s

/-- One step of `try_pop`. -/
def consume (s : State P T) : Except Misuse (State P T) :=
  match s.consumer with
  | .idle => .ok { s with consumer := .barrier s.ring.readi }
  | .barrier slot =>
    if slot = s.ring.readendi then .ok { s with consumer := .idle } -- empty
    else .ok { s with consumer := .move slot }
  | .move slot =>
    match s.ring.storage.read slot with
    | .error e => .error e
    | .ok item => .ok { s with consumer := .destroy slot item }
  | .destroy slot item =>
    match s.ring.storage.destruct slot with
    | .error e => .error e
    | .ok storage =>
      .ok { s with ring := { s.ring with storage := storage }, consumer := .store slot item }
  | .store slot item =>
    .ok { s with
      ring := s.ring.take (wrapReset (slot + 1) s.ring.capacity), consumer := .idle
      popped := s.popped ++ [item] }

def step (s : State P T) : Action P T → Except Misuse (State P T)
  | .push p item =>
    match s.producers p with
    | .idle => .ok (s.set p (.loadWrite item))
    | _ => .ok s
  | .produce p weak => produce s p weak
  | .consume => consume s

/-- No compare-and-swap of the write index succeeds while the ring is full. -/
def roomy (s : State P T) : Action P T → Bool
  | .produce p false =>
    match s.producers p with
    | .exchange _ slot next => s.ring.writei != slot || s.ring.readi != next
    | _ => true
  | _ => true

/-! ## The queue is valid while every reservation finds room -/

structure Valid (s : State P T) : Prop where
  ring : s.ring.Valid (fun p => (s.producers p).toTicket) s.consumer
  next : ∀ p item slot next, s.producers p = .exchange item slot next →
    next = wrapReset (slot + 1) s.ring.capacity
  pushed : s.pushed = s.ring.reserved.take s.ring.published
  popped : s.popped = (s.ring.reserved.take s.ring.taken).map Prod.snd

omit [DecidableEq P] in
theorem initial_valid (capacity : ℕ) : Valid (State.initial capacity : State P T) where
  ring := Ring.empty_valid capacity
  next := fun _ _ _ _ h => by cases h
  pushed := rfl
  popped := rfl

theorem toTicket_set (s : State P T) (p : P) (producer : Producer T) :
    (fun q => ((s.set p producer).producers q).toTicket) =
      Function.update (fun q => (s.producers q).toTicket) p producer.toTicket := by
  funext q
  by_cases hq : q = p
  · subst hq
    simp [State.set]
  · simp [State.set, hq]

/-- A step of one producer, with what it does to the ring. -/
theorem Valid.update {s : State P T} (h : Valid s) {p : P} {producer : Producer T} {r : Ring P T}
    {pushed : List (P × T)}
    (hring : r.Valid (Function.update (fun q => (s.producers q).toTicket) p producer.toTicket)
      s.consumer) (hcapacity : r.capacity = s.ring.capacity)
    (hnext : ∀ item slot next, producer = .exchange item slot next →
      next = wrapReset (slot + 1) s.ring.capacity)
    (hpushed : pushed = r.reserved.take r.published)
    (hpopped : s.popped = (r.reserved.take r.taken).map Prod.snd) :
    Valid { s.set p producer with ring := r, pushed := pushed } where
  ring := by
    change r.Valid (fun q => ((s.set p producer).producers q).toTicket) s.consumer
    rw [toTicket_set]
    exact hring
  next := fun q item slot next hq => by
    change next = wrapReset (slot + 1) r.capacity
    rw [hcapacity]
    by_cases hqp : q = p
    · subst hqp
      exact hnext item slot next (by simpa [State.set] using hq)
    · exact h.next q item slot next (by simpa [State.set, hqp] using hq)
  pushed := hpushed
  popped := hpopped

/-- A producer that takes no ticket leaves the ring alone. -/
theorem Valid.set {s : State P T} (h : Valid s) {p : P} {producer : Producer T}
    (hp : (s.producers p).toTicket = none) (hnone : producer.toTicket = none)
    (hnext : ∀ item slot next, producer = .exchange item slot next →
      next = wrapReset (slot + 1) s.ring.capacity) : Valid (s.set p producer) := by
  refine h.update ?_ rfl hnext h.pushed h.popped
  rw [hnone, Function.update_eq_self_iff.mpr hp.symm]
  exact h.ring

theorem Valid.produce {s : State P T} (h : Valid s) (p : P) (weak : Bool)
    (hroomy : roomy s (.produce p weak)) : ∃ s', produce s p weak = .ok s' ∧ Valid s' := by
  unfold SimpleQueue.produce
  split
  case h_1 hp => exact ⟨s, rfl, h⟩
  case h_2 item hp =>
    exact ⟨_, rfl, h.set (by rw [hp]; rfl) rfl (by simp)⟩
  case h_3 item slot hp =>
    simp only
    split_ifs
    · exact ⟨_, rfl, h.set (by rw [hp]; rfl) rfl (by simp)⟩
    · refine ⟨_, rfl, h.set (by rw [hp]; rfl) rfl fun item' slot' next' heq => ?_⟩
      cases heq
      rfl
  case h_4 item slot next hp =>
    split_ifs with hswap
    · obtain ⟨rfl, rfl⟩ := hswap
      have hroom : s.ring.readi ≠ next := by
        simpa [roomy, hp] using hroomy
      have hring := h.ring.reserve (p := p) (by rw [hp]; rfl) item (h.next p item _ next hp) hroom
      have hpublished := h.ring.published_le
      refine ⟨_, rfl, h.update hring rfl (by simp) ?_ ?_⟩
      · exact h.pushed.trans (List.take_append_of_le_length hpublished).symm
      · rw [h.popped]
        exact congrArg _
          (List.take_append_of_le_length (h.ring.taken_le.trans hpublished)).symm
    · exact ⟨_, rfl, h.set (by rw [hp]; rfl) rfl (by simp)⟩
  case h_5 item slot next index hp =>
    have hticket : (s.producers p).toTicket = some (.construct item slot next index) := by
      rw [hp]
      rfl
    obtain ⟨storage, hstorage, hring⟩ := h.ring.construct hticket
    rw [hstorage]
    exact ⟨_, rfl, h.update hring rfl (by simp) h.pushed h.popped⟩
  case h_6 item slot next index hp =>
    split_ifs with hswap
    · obtain ⟨rfl, rfl⟩ := hswap
      have hticket : (s.producers p).toTicket =
          some (.checkin item s.ring.readendi next index) := by
        rw [hp]
        rfl
      obtain ⟨hturn, hring⟩ := h.ring.publish hticket rfl
      refine ⟨_, rfl, h.update hring rfl (by simp) ?_ h.popped⟩
      change s.pushed ++ [(p, item)] = s.ring.reserved.take (s.ring.published + 1)
      rw [List.take_add_one, hturn, h.pushed]
      rfl
    · exact ⟨s, rfl, h⟩

/-- How many steps of the consumer it takes at most to pop everything that is published. -/
def State.work (s : State P T) : ℕ :=
  5 * (s.ring.published - s.ring.taken) -
    match s.consumer with
    | .idle => 0
    | .barrier _ => 1
    | .move _ => 2
    | .destroy _ _ => 3
    | .store _ _ => 4

omit [DecidableEq P] in
theorem Valid.consume {s : State P T} (h : Valid s) : ∃ s', consume s = .ok s' ∧ Valid s' ∧
    s'.pushed = s.pushed ∧ s'.ring.published = s.ring.published ∧
      (s.ring.taken ≠ s.ring.published → s'.work < s.work) := by
  obtain ⟨ring, producers, consumer, pushed, popped⟩ := s
  obtain ⟨hring, hnext, hpushed, hpopped⟩ := h
  have hle := hring.taken_le
  simp only at hring hnext hpushed hpopped hle
  cases consumer with
  | idle =>
    refine ⟨_, rfl, ⟨hring.beginPop, hnext, hpushed, hpopped⟩, rfl, rfl, fun hne => ?_⟩
    simp only [State.work] at hne ⊢
    omega
  | barrier slot =>
    have hbarrier := hring.barrier
    simp only [SimpleQueue.consume]
    split_ifs at hbarrier ⊢ with hempty
    · exact ⟨_, rfl, ⟨hbarrier.2, hnext, hpushed, hpopped⟩, rfl, rfl,
        fun hne => absurd hbarrier.1 hne⟩
    · refine ⟨_, rfl, ⟨hbarrier, hnext, hpushed, hpopped⟩, rfl, rfl, fun hne => ?_⟩
      simp only [State.work] at hne ⊢
      omega
  | move slot =>
    obtain ⟨item, hread, hring'⟩ := hring.move
    simp only [SimpleQueue.consume, hread]
    refine ⟨_, rfl, ⟨hring', hnext, hpushed, hpopped⟩, rfl, rfl, fun hne => ?_⟩
    simp only [State.work] at hne ⊢
    omega
  | destroy slot item =>
    obtain ⟨storage, hstorage, hring'⟩ := hring.destroy
    simp only [SimpleQueue.consume, hstorage]
    refine ⟨_, rfl, ⟨hring', hnext, hpushed, hpopped⟩, rfl, rfl, fun hne => ?_⟩
    simp only [State.work] at hne ⊢
    omega
  | store slot item =>
    have hlt : ring.taken < ring.published := hring.pop.2.1
    obtain ⟨hitem, hring'⟩ := hring.take
    refine ⟨_, rfl, ⟨hring', hnext, hpushed, ?_⟩, rfl, rfl, fun hne => ?_⟩
    · change popped ++ [item] = (ring.reserved.take (ring.taken + 1)).map Prod.snd
      rw [List.take_add_one, List.map_append, ← hpopped, ← Option.toList_map, hitem]
      rfl
    · simp only [State.work, Ring.take] at hne ⊢
      omega

theorem Valid.step {s : State P T} {a : Action P T} (h : Valid s) (hroomy : roomy s a) :
    ∃ s', SimpleQueue.step s a = .ok s' ∧ Valid s' := by
  cases a with
  | push p item =>
    simp only [SimpleQueue.step]
    split
    case h_1 hp => exact ⟨_, rfl, h.set (by rw [hp]; rfl) rfl (by simp)⟩
    case h_2 => exact ⟨s, rfl, h⟩
  | produce p weak => exact h.produce p weak hroomy
  | consume =>
    obtain ⟨s', hs', hvalid, -⟩ := h.consume
    exact ⟨s', hs', hvalid⟩

/-- The items that have been popped are the first ones that have been pushed, in the order
of the pushes; a consumer that keeps popping gets the other ones, too; and no step
misuses a slot. -/
structure Fifo (s : State P T) : Prop where
  popped : s.popped <+: s.pushed.map Prod.snd
  drains : ∃ n s', runAll step s (List.replicate n .consume) = .ok s' ∧
    s'.popped = s.pushed.map Prod.snd
  safe : ∀ a, roomy s a → ∃ s', step s a = .ok s'

theorem Valid.fifo {s : State P T} (h : Valid s) : Fifo s where
  popped := by
    rw [h.popped, h.pushed]
    exact (List.take_prefix_take_left h.ring.taken_le).map _
  drains := by
    have progress : ∀ {t : State P T}, Valid t ∧ t.pushed = s.pushed →
        ¬ t.ring.taken = t.ring.published →
        ∃ u, SimpleQueue.step t .consume = .ok u ∧ (Valid u ∧ u.pushed = s.pushed) ∧ u.work < t.work := by
      intro t ⟨hvalid, hpushed⟩ hgoal
      obtain ⟨u, hu, hvalid', hpushed', -, hlt⟩ := hvalid.consume
      exact ⟨u, hu, ⟨hvalid', hpushed'.trans hpushed⟩, hlt hgoal⟩
    obtain ⟨n, s', hrun, ⟨hvalid, hpushed⟩, hall⟩ :=
      runAll_until _ _ _ State.work progress ⟨h, rfl⟩
    refine ⟨n, s', hrun, ?_⟩
    rw [hvalid.popped, ← hpushed, hvalid.pushed, hall]
  safe := fun a ha => by
    obtain ⟨s', hs', -⟩ := h.step ha
    exact ⟨s', hs'⟩

/-- The steps of a push and of a pop that nothing interrupts. -/
def pushAll (p item : ℕ) : List (Action ℕ ℕ) := .push p item :: List.replicate 5 (.produce p false)

def popAll : List (Action ℕ ℕ) := List.replicate 5 .consume

/-- Producer 1 is delayed before its reservation while the ring turns once and is full again:
the two items that have been pushed by then are not popped, and the next push constructs its
item over the first of them. -/
def delayedPush : List (Action ℕ ℕ) :=
  [.push 1 30, .produce 1 false, .produce 1 false] ++ pushAll 2 10 ++ popAll ++ pushAll 2 20 ++
    [.produce 1 false, .produce 1 false, .produce 1 false]

end Fimbulwinter.SimpleQueue
