import Fimbulwinter.CollectionRuns
import Fimbulwinter.KeyedList
import Fimbulwinter.TransitionRuns
import Mathlib.Data.Int.Notation

/-! # Contexts, mappings and filters of input devices

The message handlers of `engine/hid/ui.cpp`. Vectors that are kept in step are one list of
pairs or records here. Sources of devices, the dimension and the queries are left out. -/
namespace Fimbulwinter.Hid
open KeyedList

abbrev Token := ℕ

abbrev Device := ℤ

abbrev Filter := ℕ

abbrev Command := ℕ

/-- Functions to call and the data for them are only passed on. -/
abbrev Callback := ℕ

abbrev Data := ℕ

/-- `Input::button_count` -/
def buttonCount : ℕ := 152

/-- `Input::axis_count` -/
def axisCount : ℕ := 18

/-- What a filter is for. -/
inductive Control
  | button (code : Fin buttonCount)
  | axis (code : Fin axisCount)
  deriving DecidableEq, Repr

/-- `Axis::MOUSE_MOVE` -/
def Control.mouseMove : Control := .axis ⟨1, by decide⟩

def Control.all : List Control :=
  (List.finRange buttonCount).map .button ++ (List.finRange axisCount).map .axis

theorem Control.mem_all (c : Control) : c ∈ Control.all := by
  cases c <;> simp [Control.all]

instance {p : Control → Prop} [DecidablePred p] : Decidable (∀ c, p c) :=
  decidable_of_iff (∀ c ∈ Control.all, p c) ⟨fun h c => h c c.mem_all, fun h c _ => h c⟩

theorem neZero_four : NeZero 4 := ⟨by decide⟩

attribute [local instance] neZero_four

structure AxisMove where
  commandX : Command
  commandY : Command
  deriving DecidableEq, Repr

structure AxisTilt where
  commandMin : Command
  commandMax : Command
  deriving DecidableEq, Repr

structure ButtonPress where
  command : Command
  deriving DecidableEq, Repr

structure ButtonRelease where
  command : Command
  deriving DecidableEq, Repr

/-- The kinds of filters, in the order of the collection. -/
def FilterKind : Fin 4 → Type
  | 0 => AxisMove
  | 1 => AxisTilt
  | 2 => ButtonPress
  | 3 => ButtonRelease

abbrev Filters := Collection Filter FilterKind

/-- A filter of a device, with the callback and its data once there are any. -/
structure Entry where
  filter : Filter
  target : Option (Callback × Data)
  deriving DecidableEq, Repr

/-- The filters of a device. -/
abbrev DeviceMapping := Control → Entry

/-- The filters of a mapping; 0 stands for none. -/
abbrev Mapping := Control → Filter

structure Binding where
  mapping : Token
  callback : Callback
  data : Data
  deriving DecidableEq, Repr

/-- The filter that a binding of a mapping stands for. -/
def Binding.entry (b : Binding) (filter : Filter) : Entry := ⟨filter, some (b.callback, b.data)⟩

structure Context where
  active : ℕ
  hasDeviceMappings : Bool
  states : List (Token × List Binding)
  devices : List Device
  deriving DecidableEq, Repr

/-- The bindings of the active state. -/
def Context.bindings (x : Context) : List Binding :=
  match x.states[x.active]? with
  | some state => state.2
  | none => []

/-- As a ghost, what has been added under each filter, from 1 on. -/
structure State where
  devices : List (Device × DeviceMapping)
  filters : Filters
  nextAvailableFilter : Filter
  mappings : List (Token × Mapping)
  contexts : List (Token × Context)
  defaultContext : Token
  added : List (Σ kind, FilterKind kind)

def State.initial : State := ⟨[], .empty .heap, 1, [], [], 0, []⟩

inductive Misuse
  | assertion
  /-- The end of a vector is dereferenced. -/
  | endDereferenced
  | outOfFuel
  /-- A component is read that is not there. -/
  | outOfRange
  /-- A callback is called that was never set. -/
  | indeterminate
  | unreachable
  | overflow
  deriving DecidableEq, Repr

def State.findMapping (s : State) (mapping : Token) : Option Mapping :=
  (s.mappings.find? fun p => p.1 = mapping).map Prod.snd

def State.findContext (s : State) (context : Token) : Option Context :=
  (s.contexts.find? fun p => p.1 = context).map Prod.snd

def State.modifyContext (s : State) (context : Token) (f : Context → Context) : State :=
  { s with contexts := modifyFirst (fun p => p.1 = context) (fun p => (p.1, f p.2)) s.contexts }

/-! ## Filters of devices -/

/-- What `set_device_mappings` does with one mapping. -/
def setMapping (b : Binding) (mapping : Mapping) (m : DeviceMapping) :
    Except Misuse DeviceMapping :=
  if ∀ c, mapping c ≠ 0 → (m c).filter = 0 then
    .ok fun c => if mapping c ≠ 0 then b.entry (mapping c) else m c
  else .error .assertion

/-- What `clear_device_mappings` does with one mapping. -/
def clearMapping (_ : Binding) (mapping : Mapping) (m : DeviceMapping) :
    Except Misuse DeviceMapping :=
  if ∀ c, mapping c ≠ 0 → (m c).filter = mapping c then
    .ok fun c => if mapping c ≠ 0 then { m c with filter := 0 } else m c
  else .error .assertion

/-- The loop over the mappings of a state. -/
def writeBindings (s : State) (write : Binding → Mapping → DeviceMapping → Except Misuse DeviceMapping) :
    List Binding → DeviceMapping → Except Misuse DeviceMapping
  | [], m => .ok m
  | b :: bs, m =>
    match s.findMapping b.mapping with
    | none => .error .endDereferenced
    | some mapping =>
      match write b mapping m with
      | .error e => .error e
      | .ok m => writeBindings s write bs m

/-- The loop over the devices of a context. -/
def writeDevices (s : State) (write : Binding → Mapping → DeviceMapping → Except Misuse DeviceMapping)
    (bs : List Binding) :
    List Device → List (Device × DeviceMapping) → Except Misuse (List (Device × DeviceMapping))
  | [], devices => .ok devices
  | d :: ds, devices =>
    match devices.find? fun p => p.1 = d with
    | none => .error .endDereferenced
    | some (_, m) =>
      match writeBindings s write bs m with
      | .error e => .error e
      | .ok m => writeDevices s write bs ds (modifyFirst (fun p => p.1 = d) (fun p => (p.1, m)) devices)

/-- `set_device_mappings` and `clear_device_mappings`, which differ in what they write and in the
flag that they expect and leave. -/
def writeDeviceMappings (write : Binding → Mapping → DeviceMapping → Except Misuse DeviceMapping)
    (flag : Bool) (s : State) (context : Token) : Except Misuse State :=
  match s.findContext context with
  | none => .error .endDereferenced
  | some x =>
    if x.hasDeviceMappings = flag then .error .assertion
    else
      match writeDevices s write x.bindings x.devices s.devices with
      | .error e => .error e
      | .ok devices => .ok (State.modifyContext { s with devices := devices } context fun x =>
          { x with hasDeviceMappings := flag })

def setDeviceMappings : State → Token → Except Misuse State := writeDeviceMappings setMapping true

def clearDeviceMappings : State → Token → Except Misuse State :=
  writeDeviceMappings clearMapping false

/-- The mappings of a context are cleared when they are set and the condition holds, and then the
context is changed. -/
def clearThen (s : State) (context : Token) (condition : Context → Bool)
    (change : State → Except Misuse State) : Except Misuse State :=
  match s.findContext context with
  | none => .error .endDereferenced
  | some x =>
    if x.hasDeviceMappings && condition x then
      match clearDeviceMappings s context with
      | .error e => .error e
      | .ok s => change s
    else change s

/-- A checked change of one context. -/
def changeContext (context : Token) (check : Context → Bool) (f : Context → Context) (s : State) :
    Except Misuse State :=
  match s.findContext context with
  | none => .error .endDereferenced
  | some x => if check x then .ok (s.modifyContext context f) else .error .assertion

/-! ## Messages -/

inductive Action
  | addAxisMove (mapping : Token) (code : Fin axisCount) (commandX commandY : Command)
  | addAxisTilt (mapping : Token) (code : Fin axisCount) (commandMin commandMax : Command)
  | addButtonPress (mapping : Token) (code : Fin buttonCount) (command : Command)
  | addButtonRelease (mapping : Token) (code : Fin buttonCount) (command : Command)
  | addContext (context : Token) (states : List Token)
  | addDevice (context : Token) (id : Device)
  | bind (context state mapping : Token) (callback : Callback) (data : Data)
  | removeContext (context : Token)
  | removeDevice (context : Token) (id : Device)
  | setState (context state : Token)
  | unbind (context state mapping : Token)
  /-- The loop over the contexts at the end of the message phase. -/
  | setAll
  | deviceFound (id : Device)
  | deviceLost (id : Device)
  deriving DecidableEq, Repr

/-- `add_or_find_mapping` -/
def addOrFindMapping (s : State) (mapping : Token) : State :=
  if mapping ∈ s.mappings.map Prod.fst then s
  else { s with mappings := s.mappings ++ [(mapping, fun _ => 0)] }

/-- The four handlers that add a filter to a mapping. -/
def addFilter (s : State) (mapping : Token) (c : Control) (kind : Fin 4) (x : FilterKind kind) :
    Except Misuse State :=
  match s.filters.emplace id .heap kind x s.nextAvailableFilter with
  | .error _ => .error .outOfFuel
  | .ok (filters, _) =>
    let s' := addOrFindMapping s mapping
    if ∀ p ∈ s'.mappings, p.1 = mapping → p.2 c = 0 then
      .ok { s' with
        filters := filters
        nextAvailableFilter := s.nextAvailableFilter + 1
        added := s.added ++ [⟨kind, x⟩]
        mappings := modifyFirst (fun p => p.1 = mapping)
          (fun p => (p.1, Function.update p.2 c s.nextAvailableFilter)) s'.mappings }
    else .error .assertion

def addContext (s : State) (context : Token) (states : List Token) : Except Misuse State :=
  if context ∈ s.contexts.map Prod.fst ∨ states = [] then .error .assertion
  else
    let x : Context := ⟨0, false, states.map fun state => (state, []), []⟩
    if s.contexts = [] then
      .ok { s with
        contexts := [(context, { x with devices := s.devices.map Prod.fst })]
        defaultContext := context }
    else .ok { s with contexts := s.contexts ++ [(context, x)] }

/-- `Context::add_device` -/
def contextAddDevice (id : Device) (context : Token) (s : State) : Except Misuse State :=
  changeContext context
    (fun x => !x.hasDeviceMappings && decide (id ∈ s.devices.map Prod.fst) && decide (id ∉ x.devices))
    (fun x => { x with devices := x.devices ++ [id] }) s

/-- `Context::remove_device` -/
def contextRemoveDevice (id : Device) (context : Token) (s : State) : Except Misuse State :=
  changeContext context
    (fun x => !x.hasDeviceMappings && decide (id ∈ s.devices.map Prod.fst) && decide (id ∈ x.devices))
    (fun x => { x with devices := x.devices.erase id }) s

/-- The active state of a context. -/
def Context.IsActive (x : Context) (state : Token) : Bool :=
  (x.states[x.active]?.map Prod.fst) = some state

/-- `add_mapping` and `remove_mapping`: the bindings of a state change. -/
def changeBindings (context state : Token) (check : List Binding → Bool)
    (f : List Binding → List Binding) (s : State) : Except Misuse State :=
  changeContext context
    (fun x => (!x.hasDeviceMappings || !x.IsActive state) &&
      (x.states.find? fun p => p.1 = state).any fun p => check p.2)
    (fun x => { x with
      states := modifyFirst (fun p => p.1 = state) (fun p => (p.1, f p.2)) x.states }) s

/-- `set_active` -/
def setActive (context state : Token) (s : State) : Except Misuse State :=
  changeContext context
    (fun x => !x.hasDeviceMappings && decide (state ∈ x.states.map Prod.fst))
    (fun x => { x with active := x.states.findIdx fun p => p.1 = state }) s

def removeContext (context : Token) (s : State) : Except Misuse State :=
  let contexts := s.contexts.eraseP fun p => p.1 = context
  if context = s.defaultContext then
    if context = 0 then .error .assertion
    else .ok { s with
      contexts := contexts
      defaultContext := (contexts.head?.map Prod.fst).getD 0 }
  else .ok { s with contexts := contexts }

/-- One round of the loop at the end of the message phase. -/
def setUnset (s : State) (context : Token) : Except Misuse State :=
  match s.findContext context with
  | none => .error .endDereferenced
  | some x => if x.hasDeviceMappings then .ok s else setDeviceMappings s context

def deviceFound (s : State) (id : Device) : Except Misuse State :=
  if id ∈ s.devices.map Prod.fst then .error .assertion
  else
    let s := { s with devices := s.devices ++ [(id, fun _ => ⟨0, none⟩)] }
    if s.defaultContext = 0 then .ok s
    else
      match clearDeviceMappings s s.defaultContext with
      | .error e => .error e
      | .ok t =>
        match contextAddDevice id s.defaultContext t with
        | .error e => .error e
        | .ok t => setDeviceMappings t s.defaultContext

/-- One round of the loop over the contexts when a device is lost. -/
def loseFrom (id : Device) (s : State) (context : Token) : Except Misuse State :=
  match s.findContext context with
  | none => .error .endDereferenced
  | some x =>
    if id ∈ x.devices then
      match clearDeviceMappings s context with
      | .error e => .error e
      | .ok s =>
        match contextRemoveDevice id context s with
        | .error e => .error e
        | .ok s => setDeviceMappings s context
    else .ok s

def deviceLost (s : State) (id : Device) : Except Misuse State :=
  if id ∉ s.devices.map Prod.fst then .error .assertion
  else
    match (s.contexts.map Prod.fst).foldlM (loseFrom id) s with
    | .error e => .error e
    | .ok s => .ok { s with devices := s.devices.eraseP fun p => p.1 = id }

def step (s : State) : Action → Except Misuse State
  | .addAxisMove mapping code commandX commandY =>
    addFilter s mapping (.axis code) 0 (⟨commandX, commandY⟩ : AxisMove)
  | .addAxisTilt mapping code commandMin commandMax =>
    addFilter s mapping (.axis code) 1 (⟨commandMin, commandMax⟩ : AxisTilt)
  | .addButtonPress mapping code command =>
    addFilter s mapping (.button code) 2 (⟨command⟩ : ButtonPress)
  | .addButtonRelease mapping code command =>
    addFilter s mapping (.button code) 3 (⟨command⟩ : ButtonRelease)
  | .addContext context states => addContext s context states
  | .addDevice context id => clearThen s context (fun _ => true) (contextAddDevice id context)
  | .bind context state mapping callback data =>
    clearThen s context (fun x => x.IsActive state) (changeBindings context state
      (fun bs => decide (mapping ∉ bs.map Binding.mapping)) (fun bs => bs ++ [⟨mapping, callback, data⟩]))
  | .removeContext context => clearThen s context (fun _ => true) (removeContext context)
  | .removeDevice context id =>
    clearThen s context (fun _ => true) (contextRemoveDevice id context)
  | .setState context state => clearThen s context (fun _ => true) (setActive context state)
  | .unbind context state mapping =>
    clearThen s context (fun x => x.IsActive state) (changeBindings context state
      (fun bs => decide (mapping ∈ bs.map Binding.mapping))
      (fun bs => bs.eraseP fun b => b.mapping = mapping))
  | .setAll => (s.contexts.map Prod.fst).foldlM setUnset s
  | .deviceFound id => deviceFound s id
  | .deviceLost id => deviceLost s id

end Fimbulwinter.Hid
