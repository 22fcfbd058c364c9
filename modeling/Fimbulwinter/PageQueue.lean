import Fimbulwinter.RingBuffer
import Fimbulwinter.TransitionRuns

/-! # `core::container::PageQueue`

A queue of rings. A producer that finds the newest page full opens another one; the
consumer releases the oldest page once it is drained. Every access to an atomic is a
step of its own, and a page that has been released can be reached no more. -/
namespace Fimbulwinter.PageQueue

/-- The steps that are left of `try_emplace`; the empty header is `none`. -/
inductive Producer (A T : Type*)
  | idle
  | loadHeader (item : T)
  | loadWrite (item : T) (header : A)
  | loadRead (item : T) (header : A) (slot : ℕ)
  | exchange (item : T) (header : A) (slot next : ℕ)
  | ticket (header : A) (ticket : Ticket T)
  | allocate (item : T) (header : Option A)
  | replace (item : T) (header : Option A) (newHeader : A)
  deriving DecidableEq, Repr

/-- The steps that are left of `try_pop`. -/
inductive Consumer (A T : Type*)
  | idle
  | loadRead (header nextHeader : A)
  | loadWrite (header nextHeader : A) (slot : ℕ)
  | release (header nextHeader : A)
  | pop (header : A) (pop : Pop T)
  deriving DecidableEq, Repr

structure State (A P T : Type*) where
  /-- The pages that are allocated, by their addresses. -/
  pages : A → Option (Ring P T)
  /-- The pages of the queue, from the one before the empty header to the write header. -/
  chain : List A
  producers : P → Producer A T
  consumer : Consumer A T
  /-- The reservations in pages that have been released. -/
  released : List (P × T)
  /-- The pushes that have returned true, in the order in which they returned. -/
  pushed : List (P × T)
  /-- The items that pops have returned. -/
  popped : List T

variable {A P T : Type*} [DecidableEq A] [DecidableEq P]

/-- The default constructor, and the one that opens a page. -/
def State.initial (reserve : ℕ → ℕ) : Option (A × ℕ) → State A P T
  | none => ⟨fun _ => none, [], fun _ => .idle, .idle, [], [], []⟩
  | some (a, capacity) =>
    ⟨Function.update (fun _ => none) a (some (.empty (reserve capacity))), [a], fun _ => .idle,
      .idle, [], [], []⟩

/-- A call of `try_push`, the next step of a producer, and the next step of `try_pop`. A
compare-and-swap may fail without a reason, and an allocation returns an address or fails. -/
inductive Action (A P T : Type*)
  | push (p : P) (item : T)
  | produce (p : P) (weak : Bool) (address : Option A)
  | consume
  deriving DecidableEq, Repr

def State.set (s : State A P T) (p : P) (producer : Producer A T) : State A P T :=
  { s with producers := Function.update s.producers p producer }

def State.setPage (s : State A P T) (a : A) (r : Ring P T) : State A P T :=
  { s with pages := Function.update s.pages a (some r) }

def State.deallocate (s : State A P T) (a : A) : State A P T :=
  { s with pages := Function.update s.pages a none }

def State.page (s : State A P T) (a : A) : Except Misuse (Ring P T) :=
  match s.pages a with
  | none => .error .released
  | some r => .ok r

/-- The capacity that a header states; the empty one has none. -/
def State.capacity (s : State A P T) : Option A → Except Misuse ℕ
  | none => .ok 0
  | some a => (s.page a).map Ring.capacity

/-- A producer goes on with a header; there is no slot to check out from the empty one. -/
def Producer.checkout (item : T) : Option A → Producer A T
  | none => .allocate item none
  | some a => .loadWrite item a

variable (reserve : ℕ → ℕ)

/-- One step of `try_emplace`. -/
def produce (s : State A P T) (p : P) (weak : Bool) (address : Option A) :
    Except Misuse (State A P T) :=
  match s.producers p with
  | .idle => .ok s
  | .loadHeader item => .ok (s.set p (.checkout item s.chain.getLast?))
  | .loadWrite item header =>
    match s.page header with
    | .error e => .error e
    | .ok r => .ok (s.set p (.loadRead item header r.writei))
  | .loadRead item header slot =>
    match s.page header with
    | .error e => .error e
    | .ok r =>
      let next := wrapReset (slot + 1) r.capacity
      if r.readi = next then .ok (s.set p (.allocate item (some header))) -- full
      else .ok (s.set p (.exchange item header slot next))
  | .exchange item header slot next =>
    match s.page header with
    | .error e => .error e
    | .ok r =>
      if r.writei = slot ∧ weak = false then
        .ok ((s.set p (.ticket header (.construct item slot next r.reserved.length))).setPage header
          (r.reserve p item next))
      else .ok (s.set p (.loadRead item header r.writei))
  | .ticket header (.construct item slot next index) =>
    match s.page header with
    | .error e => .error e
    | .ok r =>
      match r.storage.construct slot item with
      | .error e => .error e
      | .ok storage =>
        .ok ((s.set p (.ticket header (.checkin item slot next index))).setPage header
          { r with storage := storage })
  | .ticket header (.checkin item slot next _) =>
    match s.page header with
    | .error e => .error e
    | .ok r =>
      if r.readendi = slot ∧ weak = false then
        .ok { (s.set p .idle).setPage header (r.publish next) with
          pushed := s.pushed ++ [(p, item)] }
      else .ok s
  | .allocate item header =>
    match s.capacity header with
    | .error e => .error e
    | .ok capacity =>
      match address with
      | none => .ok (s.set p .idle)
      | some a =>
        if (s.pages a).isSome then .ok s
        else .ok ((s.set p (.replace item header a)).setPage a (.empty (reserve (capacity + 1))))
  | .replace item header newHeader =>
    if s.chain.getLast? = header then
      .ok { s.set p (.loadWrite item newHeader) with chain := s.chain ++ [newHeader] }
    else .ok ((s.set p (.checkout item s.chain.getLast?)).deallocate newHeader)

/-- One step of `try_pop`. -/
def consume (s : State A P T) : Except Misuse (State A P T) :=
  match s.consumer with
  | .idle =>
    match s.chain with
    | [] => .ok s -- the empty header is empty
    | [header] => .ok { s with consumer := .pop header .idle }
    | header :: nextHeader :: _ => .ok { s with consumer := .loadRead header nextHeader }
  | .loadRead header nextHeader =>
    match s.page header with
    | .error e => .error e
    | .ok r => .ok { s with consumer := .loadWrite header nextHeader r.readi }
  | .loadWrite header nextHeader slot =>
    match s.page header with
    | .error e => .error e
    | .ok r =>
      if slot = r.writei then .ok { s with consumer := .release header nextHeader }
      else .ok { s with consumer := .pop header .idle }
  | .release header nextHeader =>
    match s.page header with
    | .error e => .error e
    | .ok r =>
      .ok { s.deallocate header with
        chain := s.chain.tail, consumer := .pop nextHeader .idle
        released := s.released ++ r.reserved }
  | .pop header pop =>
    match s.page header with
    | .error e => .error e
    | .ok r =>
      match pop with
      | .idle => .ok { s with consumer := .pop header (.barrier r.readi) }
      | .barrier slot =>
        if slot = r.readendi then .ok { s with consumer := .idle } -- empty
        else .ok { s with consumer := .pop header (.move slot) }
      | .move slot =>
        match r.storage.read slot with
        | .error e => .error e
        | .ok item => .ok { s with consumer := .pop header (.destroy slot item) }
      | .destroy slot item =>
        match r.storage.destruct slot with
        | .error e => .error e
        | .ok storage =>
          .ok { s.setPage header { r with storage := storage } with
            consumer := .pop header (.store slot item) }
      | .store slot item =>
        .ok { s.setPage header (r.take (wrapReset (slot + 1) r.capacity)) with
          consumer := .idle, popped := s.popped ++ [item] }

def step (s : State A P T) : Action A P T → Except Misuse (State A P T)
  | .push p item =>
    match s.producers p with
    | .idle => .ok (s.set p (.loadHeader item))
    | _ => .ok s
  | .produce p weak address => produce reserve s p weak address
  | .consume => consume s

/-- No compare-and-swap of a write index succeeds while the ring is full. -/
def roomy (s : State A P T) : Action A P T → Bool
  | .produce p false _ =>
    match s.producers p with
    | .exchange _ header slot next =>
      match s.pages header with
      | some r => r.writei != slot || r.readi != next
      | none => true
    | _ => true
  | _ => true

/-- The producer is going to access a page. -/
def Producer.uses (a : A) : Producer A T → Bool
  | .loadWrite _ header | .loadRead _ header _ | .exchange _ header _ _ | .ticket header _ =>
    header = a
  | .allocate _ header => header = some a
  | .idle | .loadHeader _ | .replace _ _ _ => false

/-- A page that is released has stayed drained. -/
def drained (s : State A P T) : Action A P T → Bool
  | .consume =>
    match s.consumer with
    | .release header _ =>
      match s.pages header with
      | some r => r.readi = r.writei
      | none => true
    | _ => true
  | _ => true

/-- A page that is released is not going to be accessed by a producer. -/
def spares (s : State A P T) (p : P) : Action A P T → Bool
  | .consume =>
    match s.consumer with
    | .release header _ => !(s.producers p).uses header
    | _ => true
  | _ => true

/-- Reservations find room, and pages are released when nobody needs them. -/
def Kept (s : State A P T) (a : Action A P T) : Prop :=
  roomy s a ∧ drained s a ∧ ∀ p, spares s p a

end Fimbulwinter.PageQueue
