import Fimbulwinter.LoaderMessages

/-! # The file loader among its tasks

`loader_update` and its delayed messages, the work that the loader and the file
system post, the requests to the file system, and its watches. Work runs on one
thread; what may run next is left to the properties, from any posted work down to
the first in the queue. -/
namespace Fimbulwinter.Loader
open UnstableErase

variable (hash : Name → Asset)

/-! ## Delayed messages -/

/-- A message delivered to the loader. As ghosts, it carries the load whose read task
sent it and the number of messages delivered before; the loader only ever looks at
the message. -/
structure Task where
  message : Message
  sender : Option CallPtr
  arrival : ℕ
  deriving DecidableEq, Repr

/-- Ghost: a task handed to `process_message`, and the directory being scanned then. -/
structure Handed where
  task : Task
  scanning : Option Asset
  deriving DecidableEq, Repr

/-- The loader with its delayed messages. The tasks delivered so far and those handed
to `process_message` are ghosts. -/
structure System extends State where
  delayedMessages : List Task
  arrived : List Task
  handed : List Handed
  deriving DecidableEq

def System.initial : System := ⟨State.initial, [], [], []⟩

/-- `process_message` of a task. -/
def handMessage (s : System) (task : Task) : Except Fault System :=
  match processMessage hash s.toState task.message with
  | .error e => .error e
  | .ok t => .ok { s with
      toState := t
      handed := s.handed ++ [⟨task, s.scanningDirectory⟩] }

/-- The answer to the pending scan. -/
def answers (scanning : Option Asset) : Message → Bool
  | .fileScan x => scanning = some x.directory
  | _ => false

def Message.isRegisterLibrary : Message → Bool
  | .registerLibrary _ => true
  | _ => false

/-- The loop of `loader_update` over the delayed messages that are left. The end of the
list is stored before the loop, so each answer erased in the loop leaves one slot
that the loop still reads. -/
def delayedLoop : ℕ → System → List Task → ℕ → Except Fault (System × List Task)
  | _, s, [], 0 => .ok (s, [])
  | _, _, [], _ + 1 => .error .erasedElement
  | 0, _, _ :: _, _ => .error .outOfFuel
  | n + 1, s, task :: rest, erased =>
    match handMessage hash s task with
    | .error e => .error e
    | .ok s =>
      if task.message.isRegisterLibrary then
        let scanning := s.scanningDirectory
        match rest.find? (fun t => answers scanning t.message) with
        | none => if erased = 0 then .ok (s, rest) else .error .erasedElement
        | some answer =>
          match handMessage hash s answer with
          | .error e => .error e
          | .ok s => delayedLoop n s (rest.eraseP fun t => answers scanning t.message) (erased + 1)
      else delayedLoop n s rest erased

/-- `loader_update` -/
def loaderUpdate (s : System) (message : Message) (sender : Option CallPtr) :
    Except Fault System :=
  let task : Task := ⟨message, sender, s.arrived.length⟩
  let s := { s with arrived := s.arrived ++ [task] }
  if s.scanningDirectory = none then handMessage hash s task
  else if answers s.scanningDirectory message then
    match handMessage hash s task with
    | .error e => .error e
    | .ok s =>
      match delayedLoop hash s.delayedMessages.length s s.delayedMessages 0 with
      | .error e => .error e
      | .ok (s, delayed) => .ok { s with delayedMessages := delayed }
  else .ok { s with delayedMessages := s.delayedMessages ++ [task] }

/-! ## Posted work -/

/-- A piece of work that shares ownership of the data of a load. -/
def Work.owns (call : CallPtr) : Work → Bool
  | .loaderUpdate _ _ | .fileLoad _ => false
  | .ready _ c | .addCall _ c _ _ | .removeCall _ c _ | .unload _ c => c = call

def Load.owns (call : CallPtr) (load : Load) : Bool :=
  match load.entry with
  | none => false
  | some x => x.callPtr = call

/-- A weak pointer to the data of a load can be locked. -/
def State.alive (s : State) (call : CallPtr) : Bool :=
  s.loads.rows.any (fun r => r.2.owns call) || s.works.any (Work.owns call)

def State.setCallData (s : State) (call : CallPtr) (callData : FileCallData) : State :=
  { s with callData := s.callData.set call callData }

def State.recordAll (s : State) (events : List Event) : State := { s with log := s.log ++ events }

def State.postAll (s : State) (works : List Work) : State := { s with works := s.works ++ works }

/-- `ReadData::file_load`; the client's loadcall makes the given requests. -/
def fileLoad (s : State) (data : ReadData) (requests : List MessageLoadDependency) : State :=
  let call := data.fileCallback
  match (if s.alive call then s.callData[call]? else none) with
  | none => s
  | some callData =>
    let s := if callData.ready then
        ((s.postWork (.loaderUpdate (.loadInit data.file) (some call))).recordAll
          (callData.calls.map fun c => .unreadycall call c.1)).setCallData call
            { callData with ready := false }
      else s
    let s := (s.record (.loadcall call requests)).postAll
      (requests.map fun request => .loaderUpdate (.loadDependency request) (some call))
    s.postWork (.loaderUpdate (.loadDone data.file) (some call))

/-- The work posted by `make_loaded`. -/
def readyWork (s : State) (call : CallPtr) : State :=
  match s.callData[call]? with
  | none => s
  | some callData =>
    if callData.ready then s
    else (s.recordAll (callData.calls.map fun c => .readycall call c.1)).setCallData call
      { callData with ready := true }

/-- The work posted by `load_old`. -/
def addCallWork (s : State) (call : CallPtr) (tag : Token) (callback : RelationCallback) : State :=
  match s.callData[call]? with
  | none => s
  | some callData =>
    let s := s.setCallData call { callData with calls := callData.calls ++ [(tag, callback)] }
    if callData.ready then s.record (.readycall call tag) else s

/-- The work posted when an owner is dropped. -/
def removeCallWork (s : State) (call : CallPtr) (tag : Token) : State :=
  match s.callData[call]? with
  | none => s
  | some callData =>
    match callData.calls.findIdx? (fun c => c.1 = tag) with
    | none => s
    | some i =>
      let s := if callData.ready then s.record (.unreadycall call tag) else s
      s.setCallData call { callData with calls := swapErase callData.calls i }

/-- The work that unloads a file. -/
def unloadWork (s : State) (call : CallPtr) : State :=
  match s.callData[call]? with
  | none => s
  | some callData =>
    let s := if callData.ready then
        s.recordAll (callData.calls.map fun c => .unreadycall call c.1)
      else s
    s.record (.unloadcall call)

/-- Work other than `loader_update`. -/
def runWork (s : State) (requests : List MessageLoadDependency) : Work → State
  | .loaderUpdate _ _ => s
  | .fileLoad data => fileLoad s data requests
  | .ready _ call => readyWork s call
  | .addCall _ call tag callback => addCallWork s call tag callback
  | .removeCall _ call tag => removeCallWork s call tag
  | .unload _ call => unloadWork s call

/-- What the file system does with a request. -/
def processRequest (s : State) : FilesystemRequest → State
  | .read id _ _ data =>
    { s with watches := (s.watches.emplace id data).getD s.watches }.postWork (.fileLoad data)
  | .removeWatch id => { s with watches := s.watches.erase (fun _ => ()) id }

/-! ## Steps

The loader handles its messages one by one: a message that is delivered joins the
delayed ones, and a delayed message is handed to `process_message`. -/

inductive Action
  /-- A message is posted. -/
  | post (message : Message)
  /-- A posted `loader_update` delivers its message. -/
  | arrive (index : ℕ)
  /-- A delayed message is handed to `process_message`. -/
  | hand (index : ℕ)
  /-- A piece of other work runs; a loadcall in it makes the given requests. -/
  | run (index : ℕ) (requests : List MessageLoadDependency)
  /-- The file system handles its oldest request. -/
  | request
  /-- A watched file has changed. -/
  | change (id : ℕ)
  deriving DecidableEq, Repr

def System.deliver (s : System) (message : Message) (sender : Option CallPtr) : System :=
  let task : Task := ⟨message, sender, s.arrived.length⟩
  { s with delayedMessages := s.delayedMessages ++ [task], arrived := s.arrived ++ [task] }

def System.takeWork (s : System) (index : ℕ) : System :=
  { s with works := s.works.eraseIdx index }

def System.takeDelayed (s : System) (index : ℕ) : System :=
  { s with delayedMessages := s.delayedMessages.eraseIdx index }

/-- One step; an action that does not apply changes nothing. -/
def step (s : System) : Action → Except Fault System
  | .post message => .ok { s with toState := s.postWork (.loaderUpdate message none) }
  | .arrive index =>
    match s.works[index]? with
    | some (.loaderUpdate message sender) => .ok ((s.takeWork index).deliver message sender)
    | _ => .ok s
  | .hand index =>
    match s.delayedMessages[index]? with
    | none => .ok s
    | some task => handMessage hash (s.takeDelayed index) task
  | .run index requests =>
    match s.works[index]? with
    | none | some (.loaderUpdate _ _) => .ok s
    | some work => .ok { s with toState := runWork (s.takeWork index).toState requests work }
  | .request =>
    match s.requests with
    | [] => .ok s
    | request :: requests =>
      .ok { s with toState := processRequest { s.toState with requests := requests } request }
  | .change id =>
    match s.watches.find id with
    | none => .ok s
    | some data => .ok { s with toState := s.postWork (.fileLoad data) }

/-- A step in which a delivered message is handled by `loader_update` as a whole. -/
def updateStep (s : System) : Action → Except Fault System
  | .arrive index =>
    match s.works[index]? with
    | some (.loaderUpdate message sender) => loaderUpdate hash (s.takeWork index) message sender
    | _ => .ok s
  | .hand _ => .ok s
  | action => step hash s action

variable (next : System → Action → Except Fault System)

def steps (s : System) : List Action → Except Fault System
  | [] => .ok s
  | action :: actions =>
    match next s action with
    | .error e => .error e
    | .ok s => steps s actions

/-- States reached from the empty loader by steps that meet a condition. -/
inductive Reachable (condition : System → Action → Prop) : System → Prop
  | initial : Reachable condition System.initial
  | step {s s' : System} {action : Action} (reached : Reachable condition s)
      (meets : condition s action) (taken : next s action = .ok s') : Reachable condition s'

/-- Every step of a run meets a condition. -/
def meetsAlong (condition : System → Action → Prop) [∀ s action, Decidable (condition s action)]
    (s : System) : List Action → Bool
  | [] => true
  | action :: actions =>
    decide (condition s action) &&
      match next s action with
      | .error _ => false
      | .ok s => meetsAlong condition s actions

theorem Reachable.run {next : System → Action → Except Fault System}
    {condition : System → Action → Prop} [∀ s action, Decidable (condition s action)]
    {s s' : System} (h : Reachable next condition s) (actions : List Action)
    (hmeets : meetsAlong next condition s actions = true)
    (hs : steps next s actions = .ok s') : Reachable next condition s' := by
  induction actions generalizing s with
  | nil =>
    cases hs
    exact h
  | cons action actions ih =>
    rw [meetsAlong, Bool.and_eq_true, decide_eq_true_iff] at hmeets
    obtain ⟨hmeet, hrest⟩ := hmeets
    simp only [steps] at hs
    split at hs
    · simp at hs
    next t ht =>
      rw [ht] at hrest
      exact ih (h.step hmeet ht) hrest hs

theorem Reachable.mono {next : System → Action → Except Fault System}
    {p q : System → Action → Prop} {s : System} (h : Reachable next p s)
    (hpq : ∀ s action, p s action → q s action) : Reachable next q s := by
  induction h with
  | initial => exact .initial
  | step _ meets taken ih => exact ih.step (hpq _ _ meets) taken

end Fimbulwinter.Loader
