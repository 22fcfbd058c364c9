import Fimbulwinter.KeyedList
import Fimbulwinter.TransitionRuns
import Mathlib.Data.List.Perm.Basic
import Mathlib.Data.Int.Init
import Mathlib.Algebra.Group.Int.Defs
import Mathlib.Algebra.Group.Nat.Defs

/-! # Hardware input devices

The bookkeeping of event files, open events and devices in `engine/hid/devices_x11.cpp`.
What the kernel answers when a file is opened is part of a step; what is read from open
events is left out. -/
namespace Fimbulwinter.InputDevices
open KeyedList

abbrev Name := List Char

/-- Conversion to `int8_t`, as of a device id to a player. -/
def toInt8 (n : ℤ) : ℤ := n.bmod (2 ^ 8)

/-- Conversion to `int16_t`. -/
def toInt16 (n : ℤ) : ℤ := n.bmod (2 ^ 16)

inductive EventStatus | failed | opened | uninteresting
  deriving DecidableEq, Repr

structure EventInfo where
  path : Name
  status : EventStatus
  id : ℤ
  deriving DecidableEq, Repr

structure Device where
  vendor : ℕ
  product : ℕ
  id : ℤ
  eventCount : ℤ
  deriving DecidableEq, Repr

/-- An open event. The path it was opened for and the id of its device are ghosts: the source
keeps the id as a player, in 8 bits. -/
structure Event where
  fd : ℕ
  id : ℤ
  path : Name
  device : ℤ
  deriving DecidableEq, Repr

/-- What the rest of the program is told. -/
inductive Notice
  | foundDevice (id : ℤ) (vendor product : ℕ)
  | lostDevice (id : ℤ)
  | addSource (id : ℤ) (path : Name)
  | removeSource (id : ℤ) (path : Name)
  deriving DecidableEq, Repr

/-- What comes of opening a file: nothing, an event of unknown type, which is closed again, or
an event of a device. -/
inductive Opening
  | failed
  | uninteresting
  | event (fd vendor product : ℕ)
  deriving DecidableEq, Repr

/-- The three lists and the next device id. As a ghost, the descriptors that were closed. -/
structure State where
  eventInfos : List EventInfo
  devices : List Device
  events : List Event
  nextId : ℤ
  notices : List Notice
  closed : List ℕ
  deriving DecidableEq, Repr

def State.initial : State := ⟨[], [], [], 1, [], []⟩

inductive Misuse
  /-- The end of a vector is dereferenced. -/
  | endDereferenced
  deriving DecidableEq, Repr

/-- `is_event` -/
def isEvent (name : Name) : Bool := name.take 5 = "event".toList

def toPath (name : Name) : Name := "/dev/input/".toList ++ name

/-- `get_or_create_device`: the state with the device, and its id. -/
def getOrCreateDevice (s : State) (vendor product : ℕ) : State × ℤ :=
  match s.devices.find? fun d => d.vendor = vendor ∧ d.product = product with
  | some device => (s, device.id)
  | none =>
    ({ s with
      devices := s.devices ++ [⟨vendor, product, s.nextId, 0⟩]
      nextId := toInt16 (s.nextId + 1)
      notices := s.notices ++ [.foundDevice s.nextId vendor product] }, s.nextId)

/-- `try_open_event` -/
def tryOpenEvent (s : State) (path : Name) : Opening → State × EventStatus × ℤ
  | .failed => (s, .failed, 0)
  | .uninteresting => (s, .uninteresting, 0)
  | .event fd vendor product =>
    let (s, id) := getOrCreateDevice s vendor product
    ({ s with
      events := s.events ++ [⟨fd, toInt8 id, path, id⟩]
      devices := modifyFirst (fun d => d.vendor = vendor ∧ d.product = product)
        (fun d => { d with eventCount := toInt16 (d.eventCount + 1) }) s.devices
      notices := s.notices ++ [.addSource id path] }, .opened, id)

/-- `close_event` -/
def closeEvent (s : State) (info : EventInfo) : Except Misuse State :=
  match s.events.find? (fun e => e.id = info.id), s.devices.find? (fun d => d.id = info.id) with
  | some event, some device =>
    let s := { s with
      closed := s.closed ++ [event.fd]
      notices := s.notices ++ [.removeSource device.id info.path]
      devices := modifyFirst (fun d => d.id = info.id)
        (fun d => { d with eventCount := toInt16 (d.eventCount - 1) }) s.devices
      events := s.events.eraseP fun e => e.id = info.id }
    if toInt16 (device.eventCount - 1) ≤ 0 then
      .ok { s with
        notices := s.notices ++ [.lostDevice device.id]
        devices := s.devices.eraseP fun d => d.id = info.id }
    else .ok s
  | _, _ => .error .endDereferenced

/-- A file that is not known yet is opened. -/
def openNew (s : State) (path : Name) (opening : Opening) : State :=
  let (s, status, id) := tryOpenEvent s path opening
  { s with eventInfos := s.eventInfos ++ [⟨path, status, id⟩] }

/-- A file whose opening failed is opened again. -/
def openAgain (s : State) (path : Name) (opening : Opening) : State :=
  let (s, status, id) := tryOpenEvent s path opening
  { s with
    eventInfos := modifyFirst (fun i => i.path = path)
      (fun i => { i with status := status, id := id }) s.eventInfos }

/-- `std::find_if` in the event infos -/
def State.info (s : State) (path : Name) : Option EventInfo :=
  s.eventInfos.find? fun i => i.path = path

inductive Action
  /-- A file that `scan_events` lists. -/
  | scan (name : Name) (opening : Opening)
  /-- `IN_CREATE` -/
  | create (name : Name) (opening : Opening)
  /-- `IN_DELETE` -/
  | delete (name : Name)
  /-- `IN_ATTRIB` -/
  | attrib (name : Name) (opening : Opening)
  /-- The open events are written into `fds`, and polled. -/
  | poll
  deriving DecidableEq, Repr

def create (s : State) (path : Name) (opening : Opening) : State :=
  match s.info path with
  | none => openNew s path opening
  | some _ => s

def attrib (s : State) (path : Name) (opening : Opening) : State :=
  match s.info path with
  | some ⟨_, .failed, _⟩ => openAgain s path opening
  | _ => s

def scan (s : State) (path : Name) (opening : Opening) : State :=
  match s.info path with
  | none => openNew s path opening
  | some ⟨_, .failed, _⟩ => openAgain s path opening
  | some _ => s

def delete (s : State) (path : Name) : Except Misuse State :=
  match s.info path with
  | none => .ok s
  | some info =>
    let closed := if info.status = .opened then closeEvent s info else .ok s
    closed.map fun s => { s with eventInfos := s.eventInfos.eraseP fun i => i.path = path }

/-- Names that are not those of event files are passed over. -/
def step (s : State) : Action → Except Misuse State
  | .scan name opening => .ok (if isEvent name then scan s (toPath name) opening else s)
  | .create name opening => .ok (if isEvent name then create s (toPath name) opening else s)
  | .delete name => if isEvent name then delete s (toPath name) else .ok s
  | .attrib name opening => .ok (if isEvent name then attrib s (toPath name) opening else s)
  | .poll => .ok s

/-- `sizeof fds / sizeof fds[0]` -/
def fdsSize : ℕ := 11

/-! ## The books -/

/-- The files that are open. -/
def State.openInfos (s : State) : List EventInfo := s.eventInfos.filter fun i => i.status = .opened

/-- The number of open files of a device. -/
def State.openCount (s : State) (id : ℤ) : ℕ := s.openInfos.countP fun i => i.id = id

/-- Whether a device was found last, or lost; none when a device was found or lost twice. -/
def noticed (id : ℤ) (notices : List Notice) : Option Bool :=
  notices.foldl (fun known notice =>
    match notice, known with
    | .foundDevice id' _ _, some found => if id' = id then if found then none else some true
      else known
    | .lostDevice id', some found => if id' = id then if found then some false else none else known
    | _, _ => known) (some false)

/-- Events and devices agree with the files that are open. -/
structure Booked (s : State) : Prop where
  paths : (s.eventInfos.map EventInfo.path).Nodup
  events : (s.events.map fun e => (e.path, e.device)).Perm
    (s.openInfos.map fun i => (i.path, i.id))
  counts : ∀ d ∈ s.devices, d.eventCount = s.openCount d.id
  devices : ∀ id, (∃ d ∈ s.devices, d.id = id) ↔ 0 < s.openCount id
  noticed : ∀ id, (noticed id s.notices).isSome

/-- What a step should do. -/
structure Keeps (s : State) (a : Action) (t : State) : Prop where
  booked : Booked t
  closes : ∀ name info, a = .delete name → isEvent name → info ∈ s.eventInfos →
    info.path = toPath name → info.status = .opened →
    ∃ e ∈ s.events, e.path = info.path ∧ t.closed = s.closed ++ [e.fd]
  polls : a = .poll → 2 + s.events.length ≤ fdsSize

/-- The first of the open events with the id of a deleted file is the event of that file. -/
def OpenedFirst (s : State) (info : EventInfo) : Prop :=
  ∃ before e after, s.events = before ++ e :: after ∧ e.path = info.path ∧ e.id = info.id ∧
    ∀ e' ∈ before, e'.id ≠ info.id

/-- An event that is opened gets a device id, and is counted, within 16 bits. -/
def Fits (s : State) : Opening → Prop
  | .failed | .uninteresting => True
  | .event _ vendor product =>
    match s.devices.find? fun d => d.vendor = vendor ∧ d.product = product with
    | some device => s.openCount device.id + 1 < 2 ^ 15
    | none => 0 < s.nextId

/-- What a step must meet. -/
def Meets (s : State) : Action → Prop
  | .scan _ opening | .create _ opening | .attrib _ opening => Fits s opening
  | .delete name => ∀ info ∈ s.eventInfos, info.path = toPath name → info.status = .opened →
    OpenedFirst s info
  | .poll => s.openInfos.length ≤ 9

/-! ## What steps keep -/

/-- The invariant behind the books. -/
structure Sound (s : State) : Prop where
  paths : (s.eventInfos.map EventInfo.path).Nodup
  events : (s.events.map fun e => (e.path, e.device)).Perm
    (s.openInfos.map fun i => (i.path, i.id))
  ids : (s.devices.map Device.id).Nodup
  counts : ∀ d ∈ s.devices, d.eventCount = s.openCount d.id
  open_iff : ∀ id, id ∈ s.devices.map Device.id ↔ 0 < s.openCount id
  bounded : ∀ id, s.openCount id < 2 ^ 15
  next : s.nextId < 2 ^ 15
  fresh : 0 < s.nextId → ∀ d ∈ s.devices, d.id < s.nextId
  noticed : ∀ id, noticed id s.notices = some (decide (id ∈ s.devices.map Device.id))

theorem sound_initial : Sound State.initial where
  paths := .nil
  events := .nil
  ids := .nil
  counts := nofun
  open_iff := fun id => by simp [State.initial, State.openCount, State.openInfos]
  bounded := fun id => by simp [State.initial, State.openCount, State.openInfos]
  next := by decide
  fresh := fun _ => nofun
  noticed := fun id => rfl

variable {s t : State}

theorem Sound.booked (h : Sound s) : Booked s where
  paths := h.paths
  events := h.events
  counts := h.counts
  devices := fun id => by
    rw [← h.open_iff, List.mem_map]
  noticed := fun id => by
    rw [h.noticed]
    rfl

theorem noticed_append (id : ℤ) (notices : List Notice) (notice : Notice) :
    noticed id (notices ++ [notice]) =
      match notice, noticed id notices with
      | .foundDevice id' _ _, some found => if id' = id then if found then none else some true
        else some found
      | .lostDevice id', some found => if id' = id then if found then some false else none
        else some found
      | _, known => known := by
  rw [noticed, List.foldl_append]
  cases hknown : notices.foldl _ (some false) with
  | none => cases notice <;> simp [noticed, hknown]
  | some found => cases notice <;> simp [noticed, hknown]

theorem toInt16_of_lt {n : ℤ} (h : -2 ^ 15 ≤ n) (h' : n < 2 ^ 15) : toInt16 n = n := by
  rw [toInt16]
  exact Int.bmod_eq_of_le (by omega) (by omega)

/-- The state with the device of an opened event. -/
structure Prepared (s t : State) (vendor product : ℕ) (id : ℤ) : Prop where
  eventInfos : t.eventInfos = s.eventInfos
  events : t.events = s.events
  closed : t.closed = s.closed
  ids : (t.devices.map Device.id).Nodup
  mem_ids : ∀ id', id' ∈ t.devices.map Device.id ↔ id' ∈ s.devices.map Device.id ∨ id' = id
  counts : ∀ d ∈ t.devices, d.eventCount = s.openCount d.id
  next : t.nextId < 2 ^ 15
  fresh : 0 < t.nextId → ∀ d ∈ t.devices, d.id < t.nextId
  noticed : ∀ id', noticed id' t.notices = some (decide (id' ∈ t.devices.map Device.id))
  room : s.openCount id + 1 < 2 ^ 15
  found : ∃ d, t.devices.find? (fun d => d.vendor = vendor ∧ d.product = product) = some d ∧ d.id = id

theorem Sound.getOrCreateDevice (h : Sound s) {fd vendor product : ℕ}
    (hfits : Fits s (.event fd vendor product)) :
    Prepared s (getOrCreateDevice s vendor product).1 vendor product
      (getOrCreateDevice s vendor product).2 := by
  unfold InputDevices.getOrCreateDevice
  simp only [Fits] at hfits
  split
  next device hfind =>
    simp only [hfind] at hfits
    refine ⟨rfl, rfl, rfl, h.ids, fun id' => ?_, h.counts, h.next, h.fresh, h.noticed, hfits,
      device, hfind, rfl⟩
    refine ⟨.inl, fun hmem => hmem.elim id ?_⟩
    rintro rfl
    exact List.mem_map_of_mem (List.mem_of_find?_eq_some hfind)
  next hfind =>
    simp only [hfind] at hfits
    have hnew : s.nextId ∉ s.devices.map Device.id := by
      intro hmem
      obtain ⟨d, hd, hid⟩ := List.mem_map.mp hmem
      exact absurd hid (Int.ne_of_lt (h.fresh hfits d hd))
    have hzero : s.openCount s.nextId = 0 := by
      have := mt (h.open_iff s.nextId).mpr hnew
      omega
    have hnext := h.next
    refine ⟨rfl, rfl, rfl, ?_, fun id' => ?_, fun d hd => ?_, ?_, fun hpos d hd => ?_, fun id' => ?_,
      by simp [hzero], ⟨vendor, product, s.nextId, 0⟩, ?_, rfl⟩
    · rw [List.map_append, List.map_singleton, ← List.concat_eq_append]
      exact h.ids.concat hnew
    · simp [eq_comm]
    · obtain hd | hd := List.mem_append.mp hd
      · exact h.counts d hd
      · obtain rfl := List.mem_singleton.mp hd
        simp [hzero]
    · exact Int.bmod_lt (x := s.nextId + 1) (m := 2 ^ 16) (by decide)
    · -- The next id is positive only when it has not wrapped.
      have hlt : s.nextId + 1 < 2 ^ 15 := by
        by_contra hge
        have hwrap : s.nextId + 1 = 2 ^ 15 := by omega
        simp only [hwrap] at hpos
        exact absurd hpos (by decide)
      simp only [toInt16_of_lt (show -2 ^ 15 ≤ s.nextId + 1 by omega) hlt] at hpos ⊢
      obtain hd | hd := List.mem_append.mp hd
      · have := h.fresh hfits d hd
        omega
      · obtain rfl := List.mem_singleton.mp hd
        dsimp only
        omega
    · rw [noticed_append, h.noticed]
      by_cases hid : s.nextId = id'
      · subst hid
        simp [hnew]
      · simp [hid, Ne.symm hid]
    · rw [List.find?_append, hfind]
      simp

/-- An event is opened for a path that had none. -/
theorem Sound.event (h : Sound s) {fd vendor product : ℕ}
    (hfits : Fits s (.event fd vendor product)) (path : Name) {infos : List EventInfo}
    (hpaths : (infos.map EventInfo.path).Nodup)
    (hopen : (infos.filter fun i => i.status = .opened).Perm
      (s.openInfos ++ [⟨path, .opened, (InputDevices.getOrCreateDevice s vendor product).2⟩])) :
    Sound { (tryOpenEvent s path (.event fd vendor product)).1 with eventInfos := infos } := by
  have hprepared := h.getOrCreateDevice hfits
  simp only [tryOpenEvent]
  generalize InputDevices.getOrCreateDevice s vendor product = r at hprepared hopen ⊢
  obtain ⟨t, id⟩ := r
  dsimp only at hprepared hopen ⊢
  obtain ⟨device, hfind, rfl⟩ := hprepared.found
  have hmodify := modifyFirst_of_find? hprepared.ids hfind
    (fun d => { d with eventCount := toInt16 (d.eventCount + 1) })
  have hids : (modifyFirst (fun d => d.vendor = vendor ∧ d.product = product)
      (fun d => { d with eventCount := toInt16 (d.eventCount + 1) }) t.devices).map Device.id =
      t.devices.map Device.id := map_key_modifyFirst fun _ => rfl
  have hcount : ∀ id', (infos.filter fun i => i.status = .opened).countP (fun i => i.id = id') =
      s.openCount id' + if device.id = id' then 1 else 0 := by
    intro id'
    rw [hopen.countP_eq, List.countP_append, List.countP_singleton]
    simp [State.openCount]
  constructor
  · exact hpaths
  · have hevents := (h.events.append_right [(path, device.id)]).trans
      (by simpa using (hopen.map fun i => (i.path, i.id)).symm)
    simpa [hprepared.events, State.openInfos] using hevents
  · rw [hids]
    exact hprepared.ids
  · intro d hd
    rw [hmodify] at hd
    obtain ⟨d', hd', rfl⟩ := List.mem_map.mp hd
    have hcounts := hprepared.counts d' hd'
    rw [State.openCount, State.openInfos, hcount]
    split_ifs with heq hne hne
    · have hroom := hprepared.room
      simp only [heq, hcounts]
      rw [toInt16_of_lt (by omega) (by omega)]
      omega
    · exact absurd heq.symm hne
    · exact absurd hne.symm heq
    · simpa using hcounts
  · intro id'
    simp only [hids, hprepared.mem_ids, State.openCount, State.openInfos, hcount]
    have := h.open_iff id'
    split_ifs with heq
    · exact ⟨fun _ => Nat.succ_pos _, fun _ => .inr heq.symm⟩
    · rw [this, Nat.add_zero]
      exact or_iff_left (Ne.symm heq)
  · intro id'
    rw [State.openCount, State.openInfos, hcount]
    have := h.bounded id'
    have := hprepared.room
    split_ifs with heq
    · rw [← heq]
      exact this
    · omega
  · exact hprepared.next
  · intro hpos d hd
    obtain ⟨d', hd', heq⟩ := List.mem_map.mp (hids ▸ List.mem_map_of_mem hd)
    rw [← heq]
    exact hprepared.fresh hpos d' hd'
  · intro id'
    rw [noticed_append, hprepared.noticed, hids]

/-- A file is opened, and the infos are changed by what comes of it. -/
theorem Sound.tryOpenEvent (h : Sound s) {opening : Opening} (hfits : Fits s opening) (path : Name)
    {infos : List EventInfo} (hpaths : (infos.map EventInfo.path).Nodup)
    (hopen : (infos.filter fun i => i.status = .opened).Perm
      (s.openInfos ++ List.filter (fun i => i.status = .opened)
        [⟨path, (InputDevices.tryOpenEvent s path opening).2.1,
          (InputDevices.tryOpenEvent s path opening).2.2⟩])) :
    Sound { (InputDevices.tryOpenEvent s path opening).1 with eventInfos := infos } := by
  have hkeep : (infos.filter fun i => i.status = .opened).Perm s.openInfos →
      Sound { s with eventInfos := infos } := by
    intro hopen
    have hcount : ∀ id, (infos.filter fun i => i.status = .opened).countP (fun i => i.id = id) =
        s.openCount id := fun id => hopen.countP_eq _
    refine ⟨hpaths, h.events.trans (hopen.map _).symm, h.ids, fun d hd => ?_, fun id => ?_,
      fun id => ?_, h.next, h.fresh, h.noticed⟩
    · exact (h.counts d hd).trans (congrArg _ (hcount d.id).symm)
    · exact (h.open_iff id).trans (iff_of_eq (congrArg _ (hcount id).symm))
    · exact lt_of_eq_of_lt (hcount id) (h.bounded id)
  cases opening with
  | failed => exact hkeep (by simpa [InputDevices.tryOpenEvent] using hopen)
  | uninteresting => exact hkeep (by simpa [InputDevices.tryOpenEvent] using hopen)
  | event fd vendor product =>
    refine h.event hfits path hpaths ?_
    simpa [InputDevices.tryOpenEvent] using hopen

theorem tryOpenEvent_eventInfos (s : State) (path : Name) (opening : Opening) :
    (InputDevices.tryOpenEvent s path opening).1.eventInfos = s.eventInfos := by
  cases opening with
  | failed | uninteresting => rfl
  | event fd vendor product =>
    simp only [InputDevices.tryOpenEvent, InputDevices.getOrCreateDevice]
    split <;> rfl

theorem info_eq_none_iff {path : Name} :
    s.info path = none ↔ path ∉ s.eventInfos.map EventInfo.path := by
  rw [State.info, List.find?_eq_none, List.mem_map]
  simp

theorem openNew_eq (s : State) (path : Name) (opening : Opening) : openNew s path opening =
    { (InputDevices.tryOpenEvent s path opening).1 with
      eventInfos := s.eventInfos ++ [⟨path, (InputDevices.tryOpenEvent s path opening).2.1,
        (InputDevices.tryOpenEvent s path opening).2.2⟩] } := by
  rw [← tryOpenEvent_eventInfos s path opening]
  rfl

theorem openAgain_eq (s : State) (path : Name) (opening : Opening) : openAgain s path opening =
    { (InputDevices.tryOpenEvent s path opening).1 with
      eventInfos := modifyFirst (fun i => i.path = path) (fun i => { i with
        status := (InputDevices.tryOpenEvent s path opening).2.1
        id := (InputDevices.tryOpenEvent s path opening).2.2 }) s.eventInfos } := by
  rw [← tryOpenEvent_eventInfos s path opening]
  rfl

theorem Sound.openNew (h : Sound s) {opening : Opening} (hfits : Fits s opening) {path : Name}
    (hnone : s.info path = none) : Sound (openNew s path opening) := by
  rw [openNew_eq]
  refine h.tryOpenEvent hfits path ?_ ?_
  · rw [List.map_append, List.map_singleton, ← List.concat_eq_append]
    exact h.paths.concat (info_eq_none_iff.mp hnone)
  · rw [List.filter_append]
    exact .refl _

/-- With distinct paths, a file that is not open becomes one of the open ones. -/
theorem filter_modifyFirst {infos : List EventInfo} (hpaths : (infos.map EventInfo.path).Nodup)
    {info : EventInfo} (hmem : info ∈ infos) (hstatus : info.status ≠ .opened)
    (status : EventStatus) (id : ℤ) :
    ((modifyFirst (fun i => i.path = info.path) (fun i => { i with status := status, id := id })
      infos).filter fun i => i.status = .opened).Perm
      ((infos.filter fun i => i.status = .opened) ++
        [⟨info.path, status, id⟩].filter fun i => i.status = .opened) := by
  obtain ⟨before, after, rfl⟩ := List.append_of_mem hmem
  rw [List.map_append, List.map_cons] at hpaths
  have hbefore : ∀ i ∈ before, decide (i.path = info.path) = false := fun i hi => by
    rw [decide_eq_false_iff_not]
    intro heq
    exact (List.nodup_append.mp hpaths).2.2 i.path (List.mem_map_of_mem hi) info.path
      (.head _) heq
  have hmodify : modifyFirst (fun i => i.path = info.path)
      (fun i => { i with status := status, id := id }) (before ++ info :: after) =
      before ++ ⟨info.path, status, id⟩ :: after := by
    clear hpaths hmem
    induction before with
    | nil => simp [modifyFirst]
    | cons b before ih =>
      obtain ⟨hb, hbefore⟩ := List.forall_mem_cons.mp hbefore
      rw [List.cons_append, modifyFirst, if_neg (by simp [hb]), ih hbefore, List.cons_append]
  have hinfo : (info :: after).filter (fun i => i.status = .opened) =
      after.filter fun i => i.status = .opened := List.filter_cons_of_neg (by simpa using hstatus)
  rw [hmodify, List.filter_append, List.filter_append, hinfo, List.append_assoc,
    ← List.singleton_append, List.filter_append]
  exact .append_left _ List.perm_append_comm

theorem Sound.openAgain (h : Sound s) {opening : Opening} (hfits : Fits s opening) {path : Name}
    {info : EventInfo} (hinfo : s.info path = some info) (hstatus : info.status = .failed) :
    Sound (openAgain s path opening) := by
  obtain ⟨hmem, rfl⟩ := (find?_eq_some_iff h.paths).mp hinfo
  rw [openAgain_eq]
  refine h.tryOpenEvent hfits info.path ?_ ?_
  · have hsame : ∀ status id (i : EventInfo), EventInfo.path { i with status := status, id := id } =
        i.path := fun _ _ _ => rfl
    rw [map_key_modifyFirst (hsame _ _)]
    exact h.paths
  · exact filter_modifyFirst h.paths hmem (by simp [hstatus]) _ _

theorem Sound.create (h : Sound s) {path : Name} {opening : Opening} (hfits : Fits s opening) :
    Sound (create s path opening) := by
  rw [InputDevices.create]
  split
  next hnone => exact h.openNew hfits hnone
  next => exact h

theorem Sound.attrib (h : Sound s) {path : Name} {opening : Opening} (hfits : Fits s opening) :
    Sound (attrib s path opening) := by
  rw [InputDevices.attrib]
  split
  next hinfo => exact h.openAgain hfits hinfo rfl
  next => exact h

theorem Sound.scan (h : Sound s) {path : Name} {opening : Opening} (hfits : Fits s opening) :
    Sound (scan s path opening) := by
  rw [InputDevices.scan]
  split
  next hnone => exact h.openNew hfits hnone
  next hinfo => exact h.openAgain hfits hinfo rfl
  next => exact h

/-- A file that is not open is forgotten. -/
theorem Sound.eraseClosed (h : Sound s) {info : EventInfo} (hmem : info ∈ s.eventInfos)
    (hstatus : info.status ≠ .opened) :
    Sound { s with eventInfos := s.eventInfos.eraseP fun i => i.path = info.path } := by
  have hopen : ((s.eventInfos.eraseP fun i => i.path = info.path).filter fun i =>
      i.status = .opened) = s.openInfos := by
    rw [eraseP_eq_filter h.paths, List.filter_filter, State.openInfos]
    refine List.filter_congr fun i hi => ?_
    by_cases hopened : i.status = .opened
    · have hne : i.path ≠ info.path := fun heq =>
        hstatus (List.inj_on_of_nodup_map h.paths hi hmem heq ▸ hopened)
      simp [hopened, hne]
    · simp [hopened]
  have hcount : ∀ id, ((s.eventInfos.eraseP fun i => i.path = info.path).filter fun i =>
      i.status = .opened).countP (fun i => i.id = id) = s.openCount id := fun id => by
    rw [hopen, State.openCount]
  refine ⟨h.paths.sublist (List.eraseP_sublist.map _), ?_, h.ids, fun d hd => ?_, fun id => ?_,
    fun id => ?_, h.next, h.fresh, h.noticed⟩
  · exact h.events.trans (.of_eq (congrArg _ hopen.symm))
  · exact (h.counts d hd).trans (congrArg _ (hcount d.id).symm)
  · exact (h.open_iff id).trans (iff_of_eq (congrArg _ (hcount id).symm))
  · exact lt_of_eq_of_lt (hcount id) (h.bounded id)

theorem openCount_eq_of_perm {infos : List EventInfo} {info : EventInfo}
    (h : s.openInfos.Perm (info :: infos)) (id : ℤ) :
    s.openCount id = infos.countP (fun i => i.id = id) + if info.id = id then 1 else 0 := by
  rw [State.openCount, h.countP_eq, List.countP_cons]
  simp

/-- The open files but the one with a path. -/
def leftInfos (s : State) (path : Name) : List EventInfo :=
  (s.eventInfos.eraseP fun i => i.path = path).filter fun i => i.status = .opened

/-- The devices, with an event less for one of them. -/
def uncounted (devices : List Device) (id : ℤ) : List Device :=
  modifyFirst (fun d => d.id = id)
    (fun d => { d with eventCount := toInt16 (d.eventCount - 1) }) devices

theorem map_id_uncounted (devices : List Device) (id : ℤ) :
    (uncounted devices id).map Device.id = devices.map Device.id :=
  map_key_modifyFirst fun _ => rfl

section CloseEvent

variable {info : EventInfo} {e : Event} {before after : List Event}

theorem Sound.openInfos_perm (h : Sound s) (hmem : info ∈ s.eventInfos)
    (hstatus : info.status = .opened) :
    s.openInfos.Perm (info :: leftInfos s info.path) := by
  have hperm := (List.perm_cons_erase hmem).filter fun i => i.status = .opened
  have herase : s.eventInfos.eraseP (fun i => i.path = info.path) = s.eventInfos.erase info := by
    rw [eraseP_eq_filter h.paths, (List.Nodup.of_map _ h.paths).erase_eq_filter]
    refine List.filter_congr fun i hi => ?_
    rw [bne, decide_not, beq_eq_decide]
    congr 1
    exact decide_eq_decide.mpr ⟨fun heq => List.inj_on_of_nodup_map h.paths hi hmem heq,
      congrArg EventInfo.path⟩
  rw [leftInfos, herase]
  rwa [List.filter_cons_of_pos (by simpa using hstatus)] at hperm

theorem Sound.device_eq (h : Sound s) (hmem : info ∈ s.eventInfos) (he : e ∈ s.events)
    (hpath : e.path = info.path) : e.device = info.id := by
  have hpair : (e.path, e.device) ∈ s.openInfos.map fun i => (i.path, i.id) :=
    h.events.subset (List.mem_map.mpr ⟨e, he, rfl⟩)
  obtain ⟨i, hi, heq⟩ := List.mem_map.mp hpair
  obtain ⟨hi', -⟩ := List.mem_filter.mp hi
  obtain ⟨hp, hd⟩ := Prod.mk.inj heq
  have hinfo := List.inj_on_of_nodup_map h.paths hi' hmem (hp.trans hpath)
  rw [← hd, hinfo]

/-- The events that are left belong to the open files that are left. -/
theorem Sound.left_events (h : Sound s) (hmem : info ∈ s.eventInfos)
    (hstatus : info.status = .opened) (hevents : s.events = before ++ e :: after)
    (hpath : e.path = info.path) :
    ((before ++ after).map fun e => (e.path, e.device)).Perm
      ((leftInfos s info.path).map fun i => (i.path, i.id)) := by
  have hdevice := h.device_eq hmem (by simp [hevents]) hpath
  have hmiddle := (@List.perm_middle _ e before after).map fun e => (e.path, e.device)
  rw [List.map_cons, hpath, hdevice] at hmiddle
  refine (hmiddle.symm.trans ?_).cons_inv
  rw [← hevents]
  exact h.events.trans ((h.openInfos_perm hmem hstatus).map _)

/-- The device of an open file, and its count without the file. -/
theorem Sound.device (h : Sound s) (hmem : info ∈ s.eventInfos) (hstatus : info.status = .opened) :
    ∃ d, s.devices.find? (fun d => d.id = info.id) = some d ∧ d ∈ s.devices ∧ d.id = info.id ∧
      toInt16 (d.eventCount - 1) =
        ((leftInfos s info.path).countP (fun i => i.id = info.id) : ℕ) := by
  have hcount := openCount_eq_of_perm (h.openInfos_perm hmem hstatus) info.id
  rw [if_pos rfl] at hcount
  have hpos : 0 < s.openCount info.id := by
    rw [hcount]
    exact Nat.succ_pos _
  obtain ⟨d, hd, hdid⟩ := List.mem_map.mp ((h.open_iff info.id).mpr hpos)
  have hcounts := h.counts d hd
  have hbounded := h.bounded info.id
  rw [hdid] at hcounts
  refine ⟨d, (find?_eq_some_iff h.ids).mpr ⟨hd, hdid⟩, hd, hdid, ?_⟩
  rw [toInt16_of_lt (by omega) (by omega)]
  omega

/-- The counts of the devices once the event is gone. -/
theorem Sound.left_counts (h : Sound s) (hmem : info ∈ s.eventInfos)
    (hstatus : info.status = .opened) :
    ∀ d ∈ uncounted s.devices info.id,
      d.eventCount = ((leftInfos s info.path).countP (fun i => i.id = d.id) : ℕ) := by
  obtain ⟨d, -, hd, hdid, hleft⟩ := h.device hmem hstatus
  intro d' hd'
  rw [uncounted, modifyFirst_eq_map h.ids] at hd'
  obtain ⟨d'', hd'', rfl⟩ := List.mem_map.mp hd'
  have hcounts := h.counts d'' hd''
  rw [openCount_eq_of_perm (h.openInfos_perm hmem hstatus)] at hcounts
  by_cases heq : d''.id = info.id
  · have hsame : d'' = d := List.inj_on_of_nodup_map h.ids hd'' hd (heq.trans hdid.symm)
    simp only [if_pos heq]
    rw [hsame, hleft, hdid]
  · simp only [if_neg heq, if_neg (Ne.symm heq)] at hcounts ⊢
    exact hcounts

/-- Whether a device has an open file left. -/
theorem Sound.left_open_iff (h : Sound s) (hmem : info ∈ s.eventInfos)
    (hstatus : info.status = .opened) {id : ℤ} (hne : id ≠ info.id) :
    id ∈ s.devices.map Device.id ↔ 0 < (leftInfos s info.path).countP fun i => i.id = id := by
  rw [h.open_iff, openCount_eq_of_perm (h.openInfos_perm hmem hstatus), if_neg (Ne.symm hne),
    Nat.add_zero]

theorem Sound.left_fresh (h : Sound s) (id : ℤ) (hnext : 0 < s.nextId) :
    ∀ d ∈ uncounted s.devices id, d.id < s.nextId := by
  intro d hd
  have hid : d.id ∈ s.devices.map Device.id := map_id_uncounted s.devices id ▸ List.mem_map_of_mem hd
  obtain ⟨d', hd', heq⟩ := List.mem_map.mp hid
  exact heq ▸ h.fresh hnext d' hd'

/-- The ids of the devices when one of them is erased. -/
theorem mem_ids_eraseP {devices : List Device} (hnodup : (devices.map Device.id).Nodup)
    (k id : ℤ) : id ∈ (devices.eraseP fun d => d.id = k).map Device.id ↔
      id ∈ devices.map Device.id ∧ id ≠ k := by
  rw [eraseP_eq_filter hnodup]
  constructor
  · intro hmem
    obtain ⟨d, hd, rfl⟩ := List.mem_map.mp hmem
    obtain ⟨hd, hne⟩ := List.mem_filter.mp hd
    exact ⟨List.mem_map_of_mem hd, of_decide_eq_true hne⟩
  · rintro ⟨hmem, hne⟩
    obtain ⟨d, hd, rfl⟩ := List.mem_map.mp hmem
    exact List.mem_map_of_mem (List.mem_filter.mpr ⟨hd, decide_eq_true hne⟩)

/-- The event of a deleted file is closed, if it is the first one with its id. -/
theorem Sound.closeEvent (h : Sound s) (hmem : info ∈ s.eventInfos)
    (hstatus : info.status = .opened) (hfirst : OpenedFirst s info) :
    ∃ t e, closeEvent s info = .ok t ∧ e ∈ s.events ∧ e.path = info.path ∧
      t.closed = s.closed ++ [e.fd] ∧ t.eventInfos = s.eventInfos ∧
      Sound { t with eventInfos := s.eventInfos.eraseP fun i => i.path = info.path } := by
  obtain ⟨before, e, after, hevents, hpath, hid, hbefore⟩ := hfirst
  have hfind : s.events.find? (fun e => e.id = info.id) = some e := by
    rw [hevents, List.find?_append, List.find?_eq_none.mpr (by simpa using hbefore)]
    simp [hid]
  have herase : s.events.eraseP (fun e => e.id = info.id) = before ++ after := by
    rw [hevents, List.eraseP_append_right _ (by simpa using hbefore)]
    simp [hid]
  have hpaths : ((s.eventInfos.eraseP fun i => i.path = info.path).map EventInfo.path).Nodup :=
    h.paths.sublist (List.eraseP_sublist.map _)
  have hleft := h.left_events hmem hstatus hevents hpath
  have hcount := openCount_eq_of_perm (h.openInfos_perm hmem hstatus)
  have hbound : ∀ id, (leftInfos s info.path).countP (fun i => i.id = id) < 2 ^ 15 := fun id => by
    have hbounded := h.bounded id
    rw [hcount] at hbounded
    omega
  have hids : ((uncounted s.devices info.id).map Device.id).Nodup :=
    map_id_uncounted s.devices info.id ▸ h.ids
  have hcounts := h.left_counts hmem hstatus
  have hnotices : ∀ id, InputDevices.noticed id (s.notices ++ [.removeSource info.id info.path]) =
      some (decide (id ∈ s.devices.map Device.id)) := fun id => by
    rw [noticed_append, h.noticed]
  obtain ⟨d, hfindDevice, hd, hdid, hone⟩ := h.device hmem hstatus
  simp only [InputDevices.closeEvent, hfind, hfindDevice, herase, hone, hdid]
  split_ifs with hlast
  · -- It was the last event of the device, which is lost.
    have hzero : (leftInfos s info.path).countP (fun i => i.id = info.id) = 0 := by omega
    have hrest : ∀ id, id ∈ ((uncounted s.devices info.id).eraseP fun d => d.id = info.id).map
        Device.id ↔ id ∈ s.devices.map Device.id ∧ id ≠ info.id := fun id => by
      rw [mem_ids_eraseP hids, map_id_uncounted]
    refine ⟨_, e, rfl, by simp [hevents], hpath, rfl, rfl, hpaths, hleft, ?_, ?_, ?_, hbound, h.next,
      ?_, ?_⟩
    · exact hids.sublist (List.eraseP_sublist.map _)
    · exact fun d' hd' => hcounts d' (List.mem_of_mem_eraseP hd')
    · intro id
      refine (hrest id).trans ?_
      by_cases hne : id = info.id
      · subst hne
        exact iff_of_false (fun hid => hid.2 rfl) (Nat.not_lt_of_le (Nat.le_of_eq hzero))
      · exact (and_iff_left hne).trans (h.left_open_iff hmem hstatus hne)
    · exact fun hnext d' hd' => h.left_fresh info.id hnext d' (List.mem_of_mem_eraseP hd')
    · intro id
      have hlost : InputDevices.noticed id (s.notices ++ [.removeSource info.id info.path] ++
          [.lostDevice info.id]) =
          some (decide (id ∈ s.devices.map Device.id ∧ id ≠ info.id)) := by
        rw [noticed_append, hnotices]
        by_cases hne : info.id = id
        · subst hne
          simpa using ⟨d, hd, hdid⟩
        · simp [hne, Ne.symm hne]
      exact hlost.trans (congrArg some (decide_eq_decide.mpr (hrest id).symm))
  · refine ⟨_, e, rfl, by simp [hevents], hpath, rfl, rfl, hpaths, hleft, hids, hcounts, ?_, hbound,
      h.next, h.left_fresh info.id, ?_⟩
    · intro id
      refine (iff_of_eq (congrArg _ (map_id_uncounted s.devices info.id))).trans ?_
      by_cases hne : id = info.id
      · subst hne
        refine iff_of_true (hdid ▸ List.mem_map_of_mem hd) ?_
        have hpos : 0 < (leftInfos s info.path).countP fun i => i.id = info.id := by omega
        exact hpos
      · exact h.left_open_iff hmem hstatus hne
    · intro id
      refine (hnotices id).trans ?_
      exact congrArg (fun ids => some (decide (id ∈ ids))) (map_id_uncounted s.devices info.id).symm

end CloseEvent

theorem Sound.delete (h : Sound s) {path : Name}
    (hmeets : ∀ info ∈ s.eventInfos, info.path = path → info.status = .opened →
      OpenedFirst s info) :
    ∃ t, delete s path = .ok t ∧ Sound t ∧
      ∀ info ∈ s.eventInfos, info.path = path → info.status = .opened →
        ∃ e ∈ s.events, e.path = info.path ∧ t.closed = s.closed ++ [e.fd] := by
  rw [InputDevices.delete]
  cases hinfo : s.info path with
  | none =>
    refine ⟨s, rfl, h, fun info hmem hpath => ?_⟩
    exact absurd (hpath ▸ List.mem_map_of_mem hmem) (info_eq_none_iff.mp hinfo)
  | some info =>
    obtain ⟨hmem, rfl⟩ := (find?_eq_some_iff h.paths).mp hinfo
    have hunique : ∀ i ∈ s.eventInfos, i.path = info.path → i = info := fun i hi heq =>
      List.inj_on_of_nodup_map h.paths hi hmem heq
    dsimp only
    split_ifs with hstatus
    · obtain ⟨t, e, ht, he, hpath, hclosed, hinfos, hsound⟩ :=
        h.closeEvent hmem hstatus (hmeets info hmem rfl hstatus)
      rw [← hinfos] at hsound
      refine ⟨_, congrArg (Except.map _) ht, hsound, fun i hi heq _ => ?_⟩
      rw [hunique i hi heq]
      exact ⟨e, he, hpath, hclosed⟩
    · refine ⟨_, rfl, h.eraseClosed hmem hstatus, fun i hi heq hopened => ?_⟩
      exact absurd (hunique i hi heq ▸ hopened) hstatus

/-- A file is handled when its name is that of an event. -/
theorem Sound.ofEvent (h : Sound s) (name : Name) (ht : Sound t) :
    Sound (if isEvent name then t else s) := by
  split_ifs
  · exact ht
  · exact h

theorem Sound.step (h : Sound s) {a : Action} (hmeets : Meets s a) :
    ∃ t, step s a = .ok t ∧ Keeps s a t ∧ Sound t := by
  have hkeeps : ∀ {t}, Sound t → (∀ name, a ≠ .delete name) → a ≠ .poll → Keeps s a t :=
    fun hsound hdelete hpoll => ⟨hsound.booked, fun name _ heq => absurd heq (hdelete name),
      fun heq => absurd heq hpoll⟩
  cases a with
  | scan name opening =>
    have hsound : Sound (if isEvent name then InputDevices.scan s (toPath name) opening else s) :=
      h.ofEvent name (h.scan hmeets)
    exact ⟨_, rfl, hkeeps hsound (by simp) (by simp), hsound⟩
  | create name opening =>
    have hsound : Sound (if isEvent name then InputDevices.create s (toPath name) opening else s) :=
      h.ofEvent name (h.create hmeets)
    exact ⟨_, rfl, hkeeps hsound (by simp) (by simp), hsound⟩
  | delete name =>
    rw [InputDevices.step]
    split_ifs with hevent
    · obtain ⟨t, ht, hsound, hcloses⟩ := h.delete hmeets
      refine ⟨t, ht, ⟨hsound.booked, fun name' info heq _ => ?_, by simp⟩, hsound⟩
      cases heq
      exact hcloses info
    · refine ⟨s, rfl, ⟨h.booked, fun name' info heq hevent' => ?_, by simp⟩, h⟩
      cases heq
      exact absurd hevent' hevent
  | attrib name opening =>
    have hsound : Sound (if isEvent name then InputDevices.attrib s (toPath name) opening else s) :=
      h.ofEvent name (h.attrib hmeets)
    exact ⟨_, rfl, hkeeps hsound (by simp) (by simp), hsound⟩
  | poll =>
    refine ⟨s, rfl, ⟨h.booked, by simp, fun _ => ?_⟩, h⟩
    have hlength := h.events.length_eq
    rw [List.length_map, List.length_map] at hlength
    rw [hlength]
    exact Nat.add_le_add_left hmeets 2

/-- When a deleted open file has the first of the open events with its device's id, and at most
nine files are open when they are polled, the books are kept, and the right descriptors closed. -/
theorem keeps_of_meets (actions : List Action)
    (h : MeetsAll step Meets State.initial actions) :
    RelatesAll step Keeps State.initial actions :=
  relatesAll_of_meetsAll Sound sound_initial (fun hsound => hsound.step) actions h

theorem keeps_of_meets_used : RelatesAll step Keeps State.initial
    [.create "event0".toList (.event 3 1 1), .poll, .delete "event0".toList] := by
  refine keeps_of_meets _ ?_
  refine (meetsAll_cons_ok rfl).mpr ⟨(show (0 : ℤ) < 1 by decide), ?_⟩
  refine (meetsAll_cons_ok rfl).mpr ⟨(show 1 ≤ 9 by decide), ?_⟩
  refine (meetsAll_cons_ok rfl).mpr ⟨fun info hmem _ _ => ?_, trivial⟩
  obtain rfl := List.mem_singleton.mp hmem
  exact ⟨[], ⟨3, 1, toPath "event0".toList, 1⟩, [], rfl, rfl, rfl, nofun⟩

/-- Of two files of one device, the second is deleted, and the descriptor of the first is closed. -/
theorem not_keeps_sibling : ¬ RelatesAll step Keeps State.initial
    [.create "event0".toList (.event 3 1 1), .create "event1".toList (.event 4 1 1),
      .delete "event1".toList] := by
  rintro ⟨s, hs, -, t, ht, -, u, hu, hkeeps, -⟩
  obtain rfl := Except.ok.inj hs
  obtain rfl := Except.ok.inj ht
  obtain rfl := Except.ok.inj hu
  obtain ⟨e, he, hpath, hclosed⟩ := hkeeps.closes "event1".toList
    ⟨toPath "event1".toList, .opened, 1⟩ rfl (by decide) (by decide) rfl rfl
  have hfd : e.fd = 3 := by
    simpa using (List.append_cancel_left hclosed).symm
  have hevents : e ∈ [⟨3, 1, toPath "event0".toList, 1⟩, ⟨4, 1, toPath "event1".toList, 1⟩] := he
  obtain rfl | hevents := List.mem_cons.mp hevents
  · exact absurd hpath (by decide)
  · obtain rfl := List.mem_singleton.mp hevents
    exact absurd hfd (by decide)

end Fimbulwinter.InputDevices
