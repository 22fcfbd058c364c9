import Fimbulwinter.LoaderMoves

/-! # Reads of earlier loads

`LoadInit` and `LoadDone` name a file, and not the load whose read has sent them. They are about
the entry of that load if nothing of an earlier one is outstanding when a load starts. -/
namespace Fimbulwinter.Loader

variable (hash : Name → Asset) {s t : State} {loads : Loads} {file : Asset}

/-! ## What holds in every state -/

/-- The loadcall of a load has run. -/
def State.Called (s : State) (call : CallPtr) : Prop := ∃ requests, .loadcall call requests ∈ s.log

/-- Every readycall comes behind the loadcall of the same load. -/
def CalledFirst (log : List Event) : Prop :=
  ∀ before after call tag, log = before ++ .readycall call tag :: after →
    ∃ requests, .loadcall call requests ∈ before

/-- If there is an entry for the file, it has the given data. -/
def State.Current (s : State) (file : Asset) (call : CallPtr) : Prop :=
  ∀ load call', s.loads.find file = some load → load.call = some call' → call' = call

/-- A read that may be done, or is going to be. -/
def State.Reads (s : State) (data : ReadData) : Prop :=
  .fileLoad data ∈ s.works ∨ (∃ id directory filepath, .read id directory filepath data ∈ s.requests) ∨
    ∃ id, s.watches.find id = some data

/-- A message that is posted or delivered, and not handed to `process_message` yet. -/
def System.Sent (s : System) (message : Message) (sender : Option CallPtr) : Prop :=
  .loaderUpdate message sender ∈ s.works ∨
    ∃ task ∈ s.delayedMessages, task.message = message ∧ task.sender = sender

/-- The files of the loads, in the order in which these have started. -/
structure Agrees (files : List Asset) (s : System) : Prop where
  length : files.length = s.callData.length
  entries : ∀ file load call, s.loads.find file = some load → load.call = some call →
    files[call]? = some file
  reads : ∀ data, s.Reads data → files[data.fileCallback]? = some data.file
  works : ∀ work ∈ s.works, ∀ file call, work.owned = some (file, call) →
    files[call]? = some file ∧ s.Current file call
  messages : ∀ message sender, s.Sent message sender → ∀ file, message.finished = some file →
    ∃ call, sender = some call ∧ files[call]? = some file ∧ s.Current file call ∧
      (message = .loadDone file → s.Called call)
  done : ∀ file load call, s.loads.find file = some load → load.call = some call → load.Done →
    s.Called call
  ready : ∀ file call, .ready file call ∈ s.works → s.Called call
  readyData : ∀ call data, s.callData[call]? = some data → data.ready = true → s.Called call
  log : CalledFirst s.log

theorem CalledFirst.append {log events : List Event} (h : CalledFirst log)
    (hevents : ∀ call tag, .readycall call tag ∈ events → ∃ requests, .loadcall call requests ∈ log) :
    CalledFirst (log ++ events) := by
  intro before after call tag heq
  obtain ⟨passed, hbefore, hafter⟩ | ⟨left, hlog, hafter⟩ := List.append_eq_append_iff.mp heq
  · obtain ⟨requests, hcalled⟩ := hevents call tag (by rw [hafter]; simp)
    exact ⟨requests, by rw [hbefore]; exact List.mem_append_left _ hcalled⟩
  · cases left with
    | nil =>
      obtain ⟨requests, hcalled⟩ := hevents call tag (by rw [← List.nil_append events, ← hafter]; simp)
      rw [hlog, List.append_nil] at hcalled
      exact ⟨requests, hcalled⟩
    | cons event left =>
      obtain ⟨rfl, -⟩ := List.cons.inj hafter
      exact h before left call tag hlog

theorem called_append {call : CallPtr} {events : List Event} (h : s.Called call)
    (hlog : t.log = s.log ++ events) : t.Called call := by
  obtain ⟨requests, hmem⟩ := h
  exact ⟨requests, by rw [hlog]; exact List.mem_append_left _ hmem⟩

theorem Kept.current {call : CallPtr} (hkept : Kept s.loads t.loads) (h : s.Current file call) :
    t.Current file call := fun load call' hfind hcall => by
  obtain ⟨load₀, hfind₀, hcall₀, -⟩ := hkept file load call' hfind hcall
  exact h load₀ call' hfind₀ hcall₀

/-- The entry of a file is the only one. -/
theorem current_of_find {load : Load} {call : CallPtr} (hfind : s.loads.find file = some load)
    (hcall : load.call = some call) : s.Current file call := fun load' call' hfind' hcall' => by
  obtain rfl := Option.some.inj (hfind.symm.trans hfind')
  exact (Option.some.inj (hcall.symm.trans hcall')).symm

section Agrees

variable {files : List Asset} {x y : System}

theorem Agrees.moves (h : Agrees files x) (hmoves : Moves x.toState y.toState)
    (hdelayed : ∀ task ∈ y.delayedMessages, task ∈ x.delayedMessages) : Agrees files y := by
  obtain ⟨events, hlog, hevents⟩ := hmoves.log
  have hcalled : ∀ call, x.Called call → y.Called call := fun call hcall => called_append hcall hlog
  have hsent : ∀ message sender, y.Sent message sender → x.Sent message sender := by
    rintro message sender (hwork | ⟨task, htask, hmessage⟩)
    · obtain hwork | ⟨file, load, call, howned, -⟩ := hmoves.works _ hwork
      · exact .inl hwork
      · cases howned
    · exact .inr ⟨task, hdelayed task htask, hmessage⟩
  refine ⟨?_, ?_, ?_, ?_, ?_, ?_, ?_, ?_, ?_⟩
  · rw [hmoves.callData]
    exact h.length
  · intro file load call hfind hcall
    obtain ⟨load₀, hfind₀, hcall₀, -⟩ := hmoves.kept file load call hfind hcall
    exact h.entries file load₀ call hfind₀ hcall₀
  · rintro data (hwork | ⟨id, directory, filepath, hrequest⟩ | hwatch)
    · obtain hwork | ⟨file, load, call, howned, -⟩ := hmoves.works _ hwork
      · exact h.reads data (.inl hwork)
      · cases howned
    · obtain hrequest | ⟨id', heq⟩ := hmoves.requests _ hrequest
      · exact h.reads data (.inr (.inl ⟨id, directory, filepath, hrequest⟩))
      · cases heq
    · rw [hmoves.watches] at hwatch
      exact h.reads data (.inr (.inr hwatch))
  · intro work hwork file call howned
    obtain hwork | ⟨file', load, call', howned', hfind, hcall, -⟩ := hmoves.works work hwork
    · obtain ⟨hfile, hcurrent⟩ := h.works work hwork file call howned
      exact ⟨hfile, hmoves.kept.current hcurrent⟩
    · obtain ⟨rfl, rfl⟩ := Prod.mk.inj (Option.some.inj (howned.symm.trans howned'))
      exact ⟨h.entries _ load _ hfind hcall, hmoves.kept.current (current_of_find hfind hcall)⟩
  · intro message sender hsentMessage file hfinished
    obtain ⟨call, hsender, hfile, hcurrent, hdone⟩ :=
      h.messages message sender (hsent message sender hsentMessage) file hfinished
    exact ⟨call, hsender, hfile, hmoves.kept.current hcurrent, fun heq => hcalled call (hdone heq)⟩
  · intro file load call hfind hcall hdone
    obtain ⟨load₀, hfind₀, hcall₀, hiff⟩ := hmoves.kept file load call hfind hcall
    exact hcalled call (h.done file load₀ call hfind₀ hcall₀ (hiff.mp hdone))
  · intro file call hwork
    obtain hwork | ⟨file', load, call', howned, hfind, hcall, hready⟩ := hmoves.works _ hwork
    · exact hcalled call (h.ready file call hwork)
    · cases howned
      exact hcalled call (h.done file load call hfind hcall (hready rfl))
  · intro call data hdata hready
    rw [hmoves.callData] at hdata
    exact hcalled call (h.readyData call data hdata hready)
  · rw [hlog]
    exact h.log.append fun call tag hmem => absurd hmem (hevents call tag)

/-- Nothing is outstanding of an earlier load of the file: no read of it has finished without its
message being processed, and no work owns the data of a load of it. -/
structure Quiet (x : System) (file : Asset) : Prop where
  messages : ∀ message sender, x.Sent message sender → message.finished ≠ some file
  works : ∀ work ∈ x.works, ∀ call, work.owned ≠ some (file, call)

theorem Agrees.starts (h : Agrees files x) (hstarts : Starts x.toState y.toState file)
    (hquiet : Quiet x file) (hdelayed : ∀ task ∈ y.delayedMessages, task ∈ x.delayedMessages) :
    Agrees (files ++ [file]) y := by
  obtain ⟨d, hcallData, hd⟩ := hstarts.callData
  have hfiles : ∀ {call : CallPtr} {other : Asset}, files[call]? = some other →
      (files ++ [file])[call]? = some other := fun {call other} hcall => by
    rw [List.getElem?_append_left (List.getElem?_eq_some_iff.mp hcall).1, hcall]
  have hlast : (files ++ [file])[x.callData.length]? = some file := by
    rw [← h.length, List.getElem?_concat_length]
  have hcurrent : ∀ {other call}, other ≠ file → x.Current other call → y.Current other call := by
    intro other call hne hx load call' hfind hcall
    obtain hfind | ⟨heq, -⟩ := hstarts.entries other load call' hfind hcall
    · exact hx load call' hfind hcall
    · exact absurd heq hne
  have hcalled : ∀ {call}, x.Called call → y.Called call := fun {call} hcall => by
    obtain ⟨requests, hmem⟩ := hcall
    exact ⟨requests, by rw [hstarts.log]; exact hmem⟩
  have hsent : ∀ message sender, y.Sent message sender → x.Sent message sender := by
    rintro message sender (hwork | ⟨task, htask, hmessage⟩)
    · rw [hstarts.works] at hwork
      exact .inl hwork
    · exact .inr ⟨task, hdelayed task htask, hmessage⟩
  refine ⟨?_, ?_, ?_, ?_, ?_, ?_, ?_, ?_, ?_⟩
  · rw [hcallData, List.length_append, List.length_append, h.length]
    rfl
  · intro other load call hfind hcall
    obtain hfind | ⟨rfl, rfl, -⟩ := hstarts.entries other load call hfind hcall
    · exact hfiles (h.entries other load call hfind hcall)
    · exact hlast
  · rintro data (hwork | ⟨id, directory, filepath, hrequest⟩ | hwatch)
    · rw [hstarts.works] at hwork
      exact hfiles (h.reads data (.inl hwork))
    · obtain ⟨id', directory', filepath', heq⟩ := hstarts.requests
      rw [heq, List.mem_append] at hrequest
      obtain hrequest | hrequest := hrequest
      · exact hfiles (h.reads data (.inr (.inl ⟨id, directory, filepath, hrequest⟩)))
      · cases List.mem_singleton.mp hrequest
        exact hlast
    · rw [hstarts.watches] at hwatch
      exact hfiles (h.reads data (.inr (.inr hwatch)))
  · intro work hwork other call howned
    rw [hstarts.works] at hwork
    obtain ⟨hfile, hx⟩ := h.works work hwork other call howned
    refine ⟨hfiles hfile, hcurrent ?_ hx⟩
    rintro rfl
    exact hquiet.works work hwork call howned
  · intro message sender hmessage other hfinished
    have hx := hsent message sender hmessage
    obtain ⟨call, hsender, hfile, hcur, hdone⟩ := h.messages message sender hx other hfinished
    refine ⟨call, hsender, hfiles hfile, hcurrent ?_ hcur, fun heq => hcalled (hdone heq)⟩
    rintro rfl
    exact hquiet.messages message sender hx hfinished
  · intro other load call hfind hcall hdone
    obtain hfind | ⟨-, -, hnot⟩ := hstarts.entries other load call hfind hcall
    · exact hcalled (h.done other load call hfind hcall hdone)
    · exact absurd hdone hnot
  · intro other call hwork
    rw [hstarts.works] at hwork
    exact hcalled (h.ready other call hwork)
  · intro call data hdata hready
    rw [hcallData, List.getElem?_append] at hdata
    split_ifs at hdata
    · exact hcalled (h.readyData call data hdata hready)
    · obtain ⟨_, heq⟩ := List.getElem?_eq_some_iff.mp hdata
      rw [List.getElem_singleton] at heq
      rw [← heq, hd] at hready
      cases hready
  · rw [hstarts.log]
    exact h.log

/-- Some work and messages are gone. -/
theorem Agrees.fewer {works : List Work} {delayed arrived : List Task} {handed : List Handed}
    (h : Agrees files x) (hworks : ∀ work ∈ works, work ∈ x.works)
    (hsent : ∀ message sender, System.Sent ⟨{ x.toState with works := works }, delayed, arrived,
      handed⟩ message sender → x.Sent message sender) :
    Agrees files ⟨{ x.toState with works := works }, delayed, arrived, handed⟩ where
  length := h.length
  entries := h.entries
  reads := by
    rintro data (hwork | hread)
    · exact h.reads data (.inl (hworks _ hwork))
    · exact h.reads data (.inr hread)
  works work hwork := h.works work (hworks work hwork)
  messages message sender hmessage := h.messages message sender (hsent message sender hmessage)
  done := h.done
  ready file call hwork := h.ready file call (hworks _ hwork)
  readyData := h.readyData
  log := h.log

/-- Entries change that keep their data. -/
theorem Agrees.setLoads {s : State} (h : Agrees files { x with toState := s })
    (hkept : ∀ file load' call, loads.find file = some load' → load'.call = some call →
      ∃ load, s.loads.find file = some load ∧ load.call = some call ∧
        (load'.Done → load.Done ∨ s.Called call)) :
    Agrees files { x with toState := s.setLoads loads } := by
  have hcurrent : ∀ {file call}, s.Current file call → (s.setLoads loads).Current file call := by
    intro file call hs load' call' hfind hcall
    obtain ⟨load, hload, hsame, -⟩ := hkept file load' call' hfind hcall
    exact hs load call' hload hsame
  refine { h with entries := ?_, works := ?_, messages := ?_, done := ?_ }
  · intro file load' call hfind hcall
    obtain ⟨load, hload, hsame, -⟩ := hkept file load' call hfind hcall
    exact h.entries file load call hload hsame
  · intro work hwork file call howned
    obtain ⟨hfile, hs⟩ := h.works work hwork file call howned
    exact ⟨hfile, hcurrent hs⟩
  · intro message sender hmessage file hfinished
    obtain ⟨call, hsender, hfile, hs, hdone⟩ := h.messages message sender hmessage file hfinished
    exact ⟨call, hsender, hfile, hcurrent hs, hdone⟩
  · intro file load' call hfind hcall hdone
    obtain ⟨load, hload, hsame, himp⟩ := hkept file load' call hfind hcall
    exact (himp hdone).elim (h.done file load call hload hsame) id

/-! ## Other work -/

theorem Agrees.post {s : State} (h : Agrees files { x with toState := s }) (message : Message)
    (sender : Option CallPtr) (hmessage : ∀ file, message.finished = some file →
      ∃ call, sender = some call ∧ files[call]? = some file ∧ s.Current file call ∧
        (message = .loadDone file → s.Called call)) :
    Agrees files { x with toState := s.postWork (.loaderUpdate message sender) } := by
  have hold : ∀ {work : Work}, work ∈ (s.postWork (.loaderUpdate message sender)).works →
      work ∈ s.works ∨ work = .loaderUpdate message sender := fun hwork =>
    (List.mem_append.mp hwork).imp_right List.mem_singleton.mp
  refine { h with reads := ?_, works := ?_, messages := ?_, ready := ?_ }
  · rintro data (hwork | hread)
    · obtain hwork | heq := hold hwork
      · exact h.reads data (.inl hwork)
      · cases heq
    · exact h.reads data (.inr hread)
  · intro work hwork file call howned
    obtain hwork | rfl := hold hwork
    · exact h.works work hwork file call howned
    · cases howned
  · rintro message' sender' (hwork | htask)
    · obtain hwork | heq := hold hwork
      · exact h.messages message' sender' (.inl hwork)
      · cases heq
        exact hmessage
    · exact h.messages message' sender' (.inr htask)
  · intro file call hwork
    obtain hwork | heq := hold hwork
    · exact h.ready file call hwork
    · cases heq

theorem Agrees.postRead {s : State} (h : Agrees files { x with toState := s }) {data : ReadData}
    (hdata : files[data.fileCallback]? = some data.file) :
    Agrees files { x with toState := s.postWork (.fileLoad data) } := by
  have hold : ∀ {work : Work}, work ∈ (s.postWork (.fileLoad data)).works →
      work ∈ s.works ∨ work = .fileLoad data := fun hwork =>
    (List.mem_append.mp hwork).imp_right List.mem_singleton.mp
  refine { h with reads := ?_, works := ?_, messages := ?_, ready := ?_ }
  · rintro data' (hwork | hread)
    · obtain hwork | heq := hold hwork
      · exact h.reads data' (.inl hwork)
      · cases heq
        exact hdata
    · exact h.reads data' (.inr hread)
  · intro work hwork file call howned
    obtain hwork | rfl := hold hwork
    · exact h.works work hwork file call howned
    · cases howned
  · rintro message sender (hwork | htask)
    · obtain hwork | heq := hold hwork
      · exact h.messages message sender (.inl hwork)
      · cases heq
    · exact h.messages message sender (.inr htask)
  · intro file call hwork
    obtain hwork | heq := hold hwork
    · exact h.ready file call hwork
    · cases heq

theorem Agrees.recordAll {s : State} (h : Agrees files { x with toState := s }) (events : List Event)
    (hevents : ∀ call tag, .readycall call tag ∈ events → s.Called call) :
    Agrees files { x with toState := s.recordAll events } := by
  have hcalled : ∀ {call}, s.Called call → (s.recordAll events).Called call := fun hcall =>
    called_append hcall rfl
  refine { h with messages := ?_, done := ?_, ready := ?_, readyData := ?_, log := ?_ }
  · intro message sender hmessage file hfinished
    obtain ⟨call, hsender, hfile, hs, hdone⟩ := h.messages message sender hmessage file hfinished
    exact ⟨call, hsender, hfile, hs, fun heq => hcalled (hdone heq)⟩
  · exact fun file load call hfind hcall hdone => hcalled (h.done file load call hfind hcall hdone)
  · exact fun file call hwork => hcalled (h.ready file call hwork)
  · exact fun call data hdata hready => hcalled (h.readyData call data hdata hready)
  · exact h.log.append hevents

theorem Agrees.setCallData {s : State} (h : Agrees files { x with toState := s }) (call : CallPtr)
    (callData : FileCallData) (hready : callData.ready = true → s.Called call) :
    Agrees files { x with toState := s.setCallData call callData } := by
  refine { h with length := ?_, readyData := ?_ }
  · rw [h.length]
    exact List.length_set.symm
  · intro call' data hdata hdataReady
    change (s.callData.set call callData)[call']? = some data at hdata
    rw [List.getElem?_set] at hdata
    split_ifs at hdata with heq
    · cases hdata
      exact heq ▸ hready hdataReady
    · exact h.readyData call' data hdata hdataReady

theorem owned_of_owns {work : Work} {call : CallPtr} (h : work.owns call = true) :
    ∃ file, work.owned = some (file, call) := by
  cases work with
  | loaderUpdate message sender => cases h
  | fileLoad data => cases h
  | ready file call' | addCall file call' _ _ | removeCall file call' _ | unload file call' =>
    obtain rfl := of_decide_eq_true h
    exact ⟨file, rfl⟩

theorem call_of_owns {load : Load} {call : CallPtr} (h : load.owns call = true) :
    load.call = some call := by
  rw [Load.owns] at h
  split at h
  · cases h
  next x hentry =>
    rw [Load.call, hentry]
    exact congrArg some (of_decide_eq_true h)

/-- Data that is alive belongs to the entry of its file, if there is one. -/
theorem Agrees.current_of_alive {s : State} (h : Agrees files { x with toState := s })
    {call : CallPtr} (hfile : files[call]? = some file) (halive : s.alive call = true) :
    s.Current file call := by
  rw [State.alive, Bool.or_eq_true, List.any_eq_true, List.any_eq_true] at halive
  obtain ⟨⟨file', load⟩, hrow, howns⟩ | ⟨work, hwork, howns⟩ := halive
  · have hfind : s.loads.find file' = some load := DenseTable.find_eq_some_iff.mpr hrow
    have hcall := call_of_owns howns
    obtain rfl := Option.some.inj (hfile.symm.trans (h.entries file' load call hfind hcall))
    exact current_of_find hfind hcall
  · obtain ⟨file', howned⟩ := owned_of_owns howns
    obtain ⟨hfile', hcurrent⟩ := h.works work hwork file' call howned
    obtain rfl := Option.some.inj (hfile.symm.trans hfile')
    exact hcurrent

theorem Agrees.postAll {s : State} (h : Agrees files { x with toState := s })
    (requests : List MessageLoadDependency) (sender : Option CallPtr) :
    Agrees files { x with toState := s.postAll (requests.map fun request =>
      .loaderUpdate (.loadDependency request) sender) } := by
  induction requests generalizing s with
  | nil =>
    rw [List.map_nil, State.postAll, List.append_nil]
    exact h
  | cons request requests ih =>
    have hpost := ih (h.post (.loadDependency request) sender fun _ hfinished => by cases hfinished)
    rw [State.postAll, State.postWork, List.append_assoc] at hpost
    exact hpost

/-- A read that is done: its messages are those of the entry of the file, if there is one. -/
theorem Agrees.fileLoad {s : State} (h : Agrees files { x with toState := s }) {data : ReadData}
    (hdata : files[data.fileCallback]? = some data.file) (requests : List MessageLoadDependency) :
    Agrees files { x with toState := fileLoad s data requests } := by
  rw [Loader.fileLoad]
  dsimp only
  split
  · exact h
  next callData hcallData =>
    have halive : s.alive data.fileCallback = true := by
      by_contra hnot
      rw [if_neg hnot] at hcallData
      cases hcallData
    have hcurrent := h.current_of_alive hdata halive
    obtain ⟨s', hs', hloads, hs⟩ : ∃ s' : State, (if callData.ready = true then
        ((s.postWork (.loaderUpdate (.loadInit data.file) (some data.fileCallback))).recordAll
          (callData.calls.map fun c => .unreadycall data.fileCallback c.1)).setCallData
            data.fileCallback { callData with ready := false }
        else s) = s' ∧ s'.loads = s.loads ∧ Agrees files { x with toState := s' } := by
      split_ifs
      · refine ⟨_, rfl, rfl, ((h.post (.loadInit data.file) _ fun file hfinished => ?_).recordAll _
          fun call tag hmem => ?_).setCallData _ _ fun hready => by cases hready⟩
        · cases hfinished
          exact ⟨_, rfl, hdata, hcurrent, fun heq => by cases heq⟩
        · obtain ⟨c, -, hc⟩ := List.mem_map.mp hmem
          cases hc
      · exact ⟨s, rfl, rfl, h⟩
    rw [hs']
    have hcalled : (s'.recordAll [.loadcall data.fileCallback requests]).Called data.fileCallback :=
      ⟨requests, List.mem_append_right _ (List.mem_singleton_self _)⟩
    have hrecord := hs.recordAll [.loadcall data.fileCallback requests]
      fun call tag hmem => by cases List.mem_singleton.mp hmem
    refine (hrecord.postAll requests (some data.fileCallback)).post _ _ fun file hfinished => ?_
    cases hfinished
    refine ⟨_, rfl, hdata, fun load call' hfind hcall => ?_, fun _ => hcalled⟩
    exact hcurrent load call' (hloads ▸ hfind) hcall

theorem Agrees.readyWork {s : State} (h : Agrees files { x with toState := s }) {call : CallPtr}
    (hcalled : s.Called call) : Agrees files { x with toState := readyWork s call } := by
  rw [Loader.readyWork]
  split
  · exact h
  · split_ifs
    · exact h
    · refine (h.recordAll _ fun call' tag hmem => ?_).setCallData _ _ fun _ =>
        called_append hcalled rfl
      obtain ⟨c, -, hc⟩ := List.mem_map.mp hmem
      cases hc
      exact hcalled

theorem Agrees.addCallWork {s : State} (h : Agrees files { x with toState := s }) (call : CallPtr)
    (tag : Token) (callback : RelationCallback) :
    Agrees files { x with toState := addCallWork s call tag callback } := by
  rw [Loader.addCallWork]
  split
  · exact h
  next callData hcallData =>
    have hset := h.setCallData call { callData with calls := callData.calls ++ [(tag, callback)] }
      fun hready => h.readyData call callData hcallData hready
    split_ifs with hready
    · refine hset.recordAll [.readycall call tag] fun call' tag' hmem => ?_
      cases List.mem_singleton.mp hmem
      exact h.readyData call callData hcallData hready
    · exact hset

theorem Agrees.removeCallWork {s : State} (h : Agrees files { x with toState := s })
    (call : CallPtr) (tag : Token) :
    Agrees files { x with toState := removeCallWork s call tag } := by
  rw [Loader.removeCallWork]
  split
  · exact h
  next callData hcallData =>
    have hcalled := h.readyData call callData hcallData
    split
    · exact h
    · split_ifs with hready
      · refine (h.recordAll [.unreadycall call tag] fun call' tag' hmem => ?_).setCallData _ _
          fun hready => called_append (hcalled hready) rfl
        cases List.mem_singleton.mp hmem
      · exact h.setCallData _ _ hcalled

theorem Agrees.unloadWork {s : State} (h : Agrees files { x with toState := s })
    (call : CallPtr) : Agrees files { x with toState := unloadWork s call } := by
  rw [Loader.unloadWork]
  split
  · exact h
  next callData hcallData =>
    have hunload : ∀ {s : State}, Agrees files { x with toState := s } →
        Agrees files { x with toState := s.recordAll [.unloadcall call] } := fun hs =>
      hs.recordAll _ fun call' tag hmem => by cases List.mem_singleton.mp hmem
    dsimp only
    split_ifs with hready
    · refine hunload (h.recordAll _ fun call' tag hmem => ?_)
      obtain ⟨c, -, hc⟩ := List.mem_map.mp hmem
      cases hc
    · exact hunload h

/-! ## Messages -/

theorem Quiet.moves (h : Quiet x file) (hmoves : Moves x.toState y.toState)
    (habsent : x.loads.find file = none)
    (hdelayed : ∀ task ∈ y.delayedMessages, task ∈ x.delayedMessages) : Quiet y file := by
  refine ⟨?_, fun work hwork call howned => ?_⟩
  · rintro message sender (hwork | ⟨task, htask, hmessage⟩)
    · obtain hwork | ⟨file', load, call, howned, -⟩ := hmoves.works _ hwork
      · exact h.messages message sender (.inl hwork)
      · cases howned
    · exact h.messages message sender (.inr ⟨task, hdelayed task htask, hmessage⟩)
  · obtain hwork | ⟨file', load, call', howned', hfind, -⟩ := hmoves.works work hwork
    · exact h.works work hwork call howned
    · obtain ⟨rfl, -⟩ := Prod.mk.inj (Option.some.inj (howned.symm.trans howned'))
      rw [habsent] at hfind
      cases hfind

theorem Agrees.proceeds (h : Agrees files x) (hproceeds : Proceeds x.toState file y.toState)
    (hquiet : x.loads.find file = none → Quiet x file)
    (hdelayed : ∀ task ∈ y.delayedMessages, task ∈ x.delayedMessages) : ∃ files, Agrees files y := by
  obtain hmoves | ⟨s, hmoves, hstarts, habsent⟩ := hproceeds
  · exact ⟨files, h.moves hmoves hdelayed⟩
  · have hs : Agrees files { x with toState := s } := h.moves hmoves fun _ htask => htask
    exact ⟨_, hs.starts hstarts ((hquiet habsent).moves hmoves habsent fun _ htask => htask) hdelayed⟩

theorem processLoadInit_agrees (h : Agrees files x) (file : Asset) :
    Agrees files { x with toState := processLoadInit x.toState file } := by
  unfold processLoadInit
  split
  next loaded hfind =>
    refine h.setLoads fun other load' call hfind' hcall => ?_
    have herase : ∀ {other load}, (x.loads.erase Load.kind file).find other = some load →
        x.loads.find other = some load := fun {other load} hload => by
      rw [DenseTable.find_erase] at hload
      split_ifs at hload
      exact hload
    cases hemplace : (x.loads.erase Load.kind file).emplace file (Load.loading { loaded with
        previousCount := toInt32 loaded.attachments.size
        remainingCount := intMin }) with
    | none =>
      rw [hemplace, Option.getD_none] at hfind'
      exact ⟨load', herase hfind', hcall, .inl⟩
    | some loads =>
      rw [hemplace, Option.getD_some, DenseTable.find_emplace hemplace] at hfind'
      split_ifs at hfind' with heq
      · cases hfind'
        exact ⟨.loaded loaded, heq ▸ hfind, hcall, fun _ => .inl trivial⟩
      · exact ⟨load', herase hfind', hcall, .inl⟩
  · exact h

/-- A finished read of the entry of the file. -/
theorem processLoadDone_agrees (h : Agrees files x) {call : CallPtr}
    (hcurrent : x.Current file call) (hcalled : x.Called call) {s : State}
    (hs : processLoadDone hash x.toState file = .ok s) : Agrees files { x with toState := s } := by
  unfold processLoadDone at hs
  split at hs
  next loading hfind =>
    have hone : Agrees files { x with toState := x.toState.setLoads (x.loads.modify file fun _ =>
        .loading { loading with remainingCount := loading.remainingCount % 2 ^ 31 }) } := by
      refine h.setLoads fun other load' call' hfind' hcall => ?_
      rw [DenseTable.find_modify] at hfind'
      split_ifs at hfind' with heq
      · rw [hfind] at hfind'
        cases hfind'
        have hsame := hcurrent _ call' hfind hcall
        exact ⟨.loading loading, heq ▸ hfind, hcall, fun _ => .inr (hsame ▸ hcalled)⟩
      · exact ⟨load', hfind', hcall, .inl⟩
    simp only at hs
    split_ifs at hs with hzero
    · refine hone.moves ((finishLoading_moves hash _ _ _ fun load hload => ?_).ok hs)
        fun _ htask => htask
      rw [loads_setLoads, DenseTable.find_modify, if_pos rfl, hfind] at hload
      cases hload
      exact Int.le_of_eq hzero.symm
    · cases hs
      exact hone
  · cases hs
    exact h

theorem processFileScan_moves (s : State) (message : MessageFileScan)
    (hs : processFileScan hash s message = .ok t) : Moves s t := by
  unfold processFileScan at hs
  split at hs
  · cases hs
  · cases hs
    exact { Moves.refl s with }

theorem processUnloadIndependent_moves (s : State) (tag : Token) :
    Ends (Moves s) (processUnloadIndependent hash s tag) := by
  unfold processUnloadIndependent
  split
  · exact Moves.refl s
  · exact removeFile_moves hash _ _ _

/-- There are as many dependencies that an entry waits for as there are numbers for them. -/
def full (loads : Loads) (owner : Asset) : Bool :=
  match loads.find owner with
  | some (.loading loading) => loading.remainingCount = -1
  | _ => false

/-- Nothing is outstanding of an earlier load of a file that a message may start a load of, and
there is room for another dependency of its owner. -/
def Handles (x : System) : Message → Prop
  | .loadIndependent q =>
    x.loads.find (findUnderlyingFile x.files q.name).1 = none →
      Quiet x (findUnderlyingFile x.files q.name).1
  | .loadDependency q =>
    (x.loads.find (findUnderlyingFile x.files q.name).1 = none →
      Quiet x (findUnderlyingFile x.files q.name).1) ∧
    full x.loads (findUnderlyingLoad x.loads q.owner).1 = false
  | _ => True

theorem not_full {owner : Asset} (h : full loads owner = false) {loading : LoadingLoad}
    (hfind : loads.find owner = some (.loading loading)) : loading.remainingCount ≠ -1 := by
  rw [full, hfind] at h
  exact of_decide_eq_false h

theorem processMessage_agrees (h : Agrees files x) {message : Message} {s : State}
    (hhandles : Handles x message) (hfinished : ∀ file, message.finished = some file →
      ∃ call, x.Current file call ∧ (message = .loadDone file → x.Called call))
    (hs : processMessage hash x.toState message = .ok s) :
    ∃ files, Agrees files { x with toState := s } := by
  have hmoves : ∀ {s : State}, Moves x.toState s → ∃ files, Agrees files { x with toState := s } :=
    fun hmoves => ⟨files, h.moves hmoves fun _ htask => htask⟩
  cases message with
  | fileScan q => exact hmoves (processFileScan_moves hash _ q hs)
  | loadIndependent q =>
    exact h.proceeds ((processLoadIndependent_proceeds hash _ q).ok hs) hhandles fun _ htask => htask
  | loadDependency q =>
    have hproceeds := processLoadDependency_proceeds hash x.toState q fun _ hfind =>
      not_full hhandles.2 hfind
    exact h.proceeds (hproceeds.ok hs) hhandles.1 fun _ htask => htask
  | loadDone file =>
    obtain ⟨call, hcurrent, hcalled⟩ := hfinished file rfl
    exact ⟨files, processLoadDone_agrees hash h hcurrent (hcalled rfl) hs⟩
  | loadInit file =>
    cases hs
    exact ⟨files, processLoadInit_agrees h file⟩
  | unloadIndependent tag => exact hmoves ((processUnloadIndependent_moves hash _ tag).ok hs)
  | registerFiletype _ _ _ | registerLibrary _ | unregisterFiletype _ =>
    cases hs
    exact hmoves { Moves.refl x.toState with }
  | unregisterLibrary directory =>
    cases hs
    refine hmoves ?_
    rw [processUnregisterLibrary]
    split
    · exact { Moves.refl x.toState with }
    · exact Moves.refl x.toState

/-! ## Runs -/

/-- Clients do not post that a read has finished, and messages are handled as they should be. -/
def Orderly (x : System) : Action → Prop
  | .post message => message.finished = none
  | .hand index => ∀ task ∈ x.delayedMessages[index]?, Handles x task.message
  | _ => True

theorem Agrees.takeWork (h : Agrees files x) (index : ℕ) : Agrees files (x.takeWork index) :=
  h.fewer (fun _ hwork => List.mem_of_mem_eraseIdx hwork) fun _ _ hsent =>
    hsent.imp_left List.mem_of_mem_eraseIdx

theorem Agrees.runWork (h : Agrees files x) {index : ℕ} {work : Work}
    (hwork : x.works[index]? = some work) (requests : List MessageLoadDependency) :
    Agrees files { x.takeWork index with
      toState := runWork (x.takeWork index).toState requests work } := by
  have htaken := h.takeWork index
  have hmem := List.mem_of_getElem? hwork
  cases work with
  | loaderUpdate message sender => exact htaken
  | fileLoad data => exact htaken.fileLoad (h.reads data (.inl hmem)) requests
  | ready file call => exact htaken.readyWork (h.ready file call hmem)
  | addCall file call tag callback => exact htaken.addCallWork call tag callback
  | removeCall file call tag => exact htaken.removeCallWork call tag
  | unload file call => exact htaken.unloadWork call

theorem Agrees.request {s : State} (h : Agrees files { x with toState := s })
    {request : FilesystemRequest} {requests : List FilesystemRequest}
    (hs : s.requests = request :: requests) :
    Agrees files { x with
      toState := processRequest { s with requests := requests } request } := by
  have hfewer : Agrees files { x with toState := { s with requests := requests } } := by
    refine { h with reads := ?_ }
    rintro data (hwork | ⟨id, directory, filepath, hrequest⟩ | hwatch)
    · exact h.reads data (.inl hwork)
    · refine h.reads data (.inr (.inl ⟨id, directory, filepath, ?_⟩))
      change _ ∈ s.requests
      rw [hs]
      exact List.mem_cons_of_mem _ hrequest
    · exact h.reads data (.inr (.inr hwatch))
  cases request with
  | read id directory filepath data =>
    have hdata : files[data.fileCallback]? = some data.file := by
      refine h.reads data (.inr (.inl ⟨id, directory, filepath, ?_⟩))
      change _ ∈ s.requests
      rw [hs]
      exact List.mem_cons_self
    refine Agrees.postRead ?_ hdata
    refine { hfewer with reads := ?_ }
    rintro data' (hwork | hrequest | ⟨id', hwatch⟩)
    · exact hfewer.reads data' (.inl hwork)
    · exact hfewer.reads data' (.inr (.inl hrequest))
    · change ((s.watches.emplace id data).getD s.watches).find id' = some data' at hwatch
      cases hemplace : s.watches.emplace id data with
      | none =>
        rw [hemplace] at hwatch
        exact hfewer.reads data' (.inr (.inr ⟨id', hwatch⟩))
      | some watches =>
        rw [hemplace, Option.getD_some, DenseTable.find_emplace hemplace] at hwatch
        split_ifs at hwatch
        · cases hwatch
          exact hdata
        · exact hfewer.reads data' (.inr (.inr ⟨id', hwatch⟩))
  | removeWatch id =>
    refine { hfewer with reads := ?_ }
    rintro data' (hwork | hrequest | ⟨id', hwatch⟩)
    · exact hfewer.reads data' (.inl hwork)
    · exact hfewer.reads data' (.inr (.inl hrequest))
    · change (s.watches.erase (fun _ => ()) id).find id' = some data' at hwatch
      rw [DenseTable.find_erase] at hwatch
      split_ifs at hwatch
      exact hfewer.reads data' (.inr (.inr ⟨id', hwatch⟩))

/-- A message that is handed to `process_message`. -/
theorem Agrees.hand (h : Agrees files x) {index : ℕ} {task : Task}
    (htask : x.delayedMessages[index]? = some task) (hhandles : Handles x task.message)
    (hy : handMessage hash (x.takeDelayed index) task = .ok y) : ∃ files, Agrees files y := by
  have hdelayed : ∀ task' ∈ (x.takeDelayed index).delayedMessages, task' ∈ x.delayedMessages :=
    fun _ hmem => List.mem_of_mem_eraseIdx hmem
  have hsent : ∀ {message sender}, (x.takeDelayed index).Sent message sender →
      x.Sent message sender := fun hmem => hmem.imp_right fun ⟨task', hmem', hmessage⟩ =>
    ⟨task', hdelayed task' hmem', hmessage⟩
  have htaken : Agrees files (x.takeDelayed index) :=
    h.moves (Moves.refl x.toState) hdelayed
  have hquiet : ∀ {file}, Quiet x file → Quiet (x.takeDelayed index) file := fun hfile =>
    ⟨fun message sender hmem => hfile.messages message sender (hsent hmem), hfile.works⟩
  have hhandles' : Handles (x.takeDelayed index) task.message := by
    revert hhandles
    cases task.message with
    | loadIndependent q => exact fun hq habsent => hquiet (hq habsent)
    | loadDependency q => exact fun hq => ⟨fun habsent => hquiet (hq.1 habsent), hq.2⟩
    | _ => exact fun _ => trivial
  rw [handMessage] at hy
  split at hy
  · cases hy
  next s hs =>
    cases hy
    obtain ⟨files', hfiles'⟩ := processMessage_agrees hash htaken hhandles'
      (fun file hfinished => by
        obtain ⟨call, -, -, hcurrent, hcalled⟩ := h.messages task.message task.sender
          (.inr ⟨task, List.mem_of_getElem? htask, rfl, rfl⟩) file hfinished
        exact ⟨call, hcurrent, hcalled⟩) hs
    exact ⟨files', hfiles'.moves (Moves.refl s) fun _ hmem => hmem⟩

theorem Agrees.step (h : Agrees files x) {action : Action} (horderly : Orderly x action)
    (hstep : step hash x action = .ok y) : ∃ files, Agrees files y := by
  cases action with
  | post message =>
    cases hstep
    refine ⟨files, Agrees.post h message none fun file hfinished => ?_⟩
    rw [show message.finished = none from horderly] at hfinished
    cases hfinished
  | arrive index =>
    rw [Loader.step] at hstep
    split at hstep
    next message sender hwork =>
      cases hstep
      refine ⟨files, h.fewer (fun _ hmem => List.mem_of_mem_eraseIdx hmem) ?_⟩
      rintro message' sender' (hmem | ⟨task, htask, rfl, rfl⟩)
      · exact .inl (List.mem_of_mem_eraseIdx hmem)
      · obtain htask | htask := List.mem_append.mp htask
        · exact .inr ⟨task, htask, rfl, rfl⟩
        · rw [List.mem_singleton.mp htask]
          exact .inl (List.mem_of_getElem? hwork)
    · cases hstep
      exact ⟨files, h⟩
  | hand index =>
    rw [Loader.step] at hstep
    split at hstep
    · cases hstep
      exact ⟨files, h⟩
    next task htask => exact h.hand hash htask (horderly task htask) hstep
  | run index requests =>
    rw [Loader.step] at hstep
    split at hstep
    · cases hstep
      exact ⟨files, h⟩
    · cases hstep
      exact ⟨files, h⟩
    next work hwork =>
      cases hstep
      exact ⟨files, (h.runWork hwork requests).moves (Moves.refl _) fun task htask => htask⟩
  | request =>
    rw [Loader.step] at hstep
    split at hstep
    · cases hstep
      exact ⟨files, h⟩
    next request requests hrequests =>
      cases hstep
      exact ⟨files, Agrees.request h hrequests⟩
  | change id =>
    rw [Loader.step] at hstep
    split at hstep
    · cases hstep
      exact ⟨files, h⟩
    next data hdata =>
      cases hstep
      exact ⟨files, Agrees.postRead h (h.reads data (.inr (.inr ⟨id, hdata⟩)))⟩

end Agrees

/-! ## Reads of the same load -/

/-- A read that has finished is that of the entry of its file, if there is one, and without one it
changes nothing; an entry is done, and its readycalls run, after its own loadcall. -/
structure NoStale (x : System) : Prop where
  own : ∀ task ∈ x.delayedMessages, ∀ file, task.message.finished = some file →
    ∃ call, task.sender = some call ∧ x.Current file call
  unchanged : ∀ task ∈ x.delayedMessages, ∀ file, task.message.finished = some file →
    (∀ load, x.loads.find file = some load → load.call = none) →
      processMessage hash x.toState task.message = .ok x.toState
  done : ∀ file load call, x.loads.find file = some load → load.call = some call → load.Done →
    x.Called call
  calledFirst : CalledFirst x.log

theorem agrees_initial : Agrees [] System.initial where
  length := rfl
  entries _ _ _ hfind := by cases hfind
  reads _ hread := by
    obtain hwork | ⟨_, _, _, hrequest⟩ | ⟨_, hwatch⟩ := hread
    · cases hwork
    · cases hrequest
    · cases hwatch
  works _ hwork := by cases hwork
  messages _ _ hsent := by
    obtain hwork | ⟨_, htask, -⟩ := hsent
    · cases hwork
    · cases htask
  done _ _ _ hfind := by cases hfind
  ready _ _ hwork := by cases hwork
  readyData _ _ hdata := by cases hdata
  log before after call tag hlog := by
    cases before <;> cases hlog

theorem processMessage_of_absent {s : State} {message : Message}
    (hfinished : message.finished = some file)
    (h : ∀ load, s.loads.find file = some load → load.call = none) :
    processMessage hash s message = .ok s := by
  cases message with
  | loadDone file' =>
    cases hfinished
    rw [processMessage, processLoadDone]
    split
    next loading hfind => cases h _ hfind
    · rfl
  | loadInit file' =>
    cases hfinished
    rw [processMessage, processLoadInit]
    split
    next loaded hfind => cases h _ hfind
    · rfl
  | _ => cases hfinished

/-- In every run whose loads start when nothing is outstanding of earlier ones of the same file, a
read that has finished changes the entry of its own load only. -/
theorem reached_noStale {x : System} (h : Reachable (step hash) Orderly x) : NoStale hash x := by
  obtain ⟨files, hfiles⟩ : ∃ files, Agrees files x := by
    induction h with
    | initial => exact ⟨[], agrees_initial⟩
    | step reached meets taken ih =>
      obtain ⟨files, hfiles⟩ := ih
      exact hfiles.step hash meets taken
  refine ⟨fun task htask file hfinished => ?_, fun task htask file hfinished habsent => ?_,
    hfiles.done, hfiles.log⟩
  · obtain ⟨call, hsender, -, hcurrent, -⟩ := hfiles.messages task.message task.sender
      (.inr ⟨task, htask, rfl, rfl⟩) file hfinished
    exact ⟨call, hsender, hcurrent⟩
  · exact processMessage_of_absent hash hfinished habsent

/-! ## A load after an unload -/

/-- The file of a message whose read has finished, or of work that owns data. -/
def Work.concerns : Work → Option Asset
  | .loaderUpdate message _ => message.finished
  | work => work.owned.map Prod.fst

def System.quiet (x : System) (file : Asset) : Bool :=
  x.works.all (fun work => work.concerns ≠ some file) &&
    x.delayedMessages.all fun task => task.message.finished ≠ some file

theorem quiet_iff (x : System) (file : Asset) : x.quiet file = true ↔ Quiet x file := by
  simp only [System.quiet, Bool.and_eq_true, List.all_eq_true, decide_eq_true_eq]
  constructor
  · rintro ⟨hworks, hdelayed⟩
    refine ⟨?_, fun work hwork call howned => hworks work hwork ?_⟩
    · rintro message sender (hwork | ⟨task, htask, rfl, -⟩)
      · exact hworks _ hwork
      · exact hdelayed task htask
    · cases work with
      | loaderUpdate message sender => cases howned
      | _ => exact congrArg (Option.map Prod.fst) howned
  · rintro ⟨hmessages, hworks⟩
    refine ⟨fun work hwork hconcerns => ?_, fun task htask =>
      hmessages task.message task.sender (.inr ⟨task, htask, rfl, rfl⟩)⟩
    cases work with
    | loaderUpdate message sender => exact hmessages message sender (.inl hwork) hconcerns
    | fileLoad data => cases hconcerns
    | ready file' call | addCall file' call _ _ | removeCall file' call _ | unload file' call =>
      cases hconcerns
      exact hworks _ hwork call rfl

instance (x : System) (file : Asset) : Decidable (Quiet x file) :=
  decidable_of_iff _ (quiet_iff x file)

instance (x : System) : DecidablePred (Handles x)
  | .loadIndependent _ => inferInstanceAs (Decidable (_ → _))
  | .loadDependency _ => inferInstanceAs (Decidable ((_ → _) ∧ _))
  | .fileScan _ | .loadDone _ | .loadInit _ | .registerFiletype _ _ _ | .registerLibrary _
  | .unloadIndependent _ | .unregisterFiletype _ | .unregisterLibrary _ => .isTrue trivial

instance (x : System) : DecidablePred (Orderly x)
  | .post message => inferInstanceAs (Decidable (message.finished = none))
  | .hand index => inferInstanceAs (Decidable (∀ task ∈ x.delayedMessages[index]?, _))
  | .arrive _ | .run _ _ | .request | .change _ => .isTrue trivial

theorem neZero_token : NeZero 5 := ⟨by decide⟩

theorem neZero_other : NeZero 6 := ⟨by decide⟩

theorem neZero_type : NeZero 7 := ⟨by decide⟩

theorem neZero_directory : NeZero 1 := ⟨Nat.one_ne_zero⟩

attribute [local instance] neZero_token neZero_other neZero_type neZero_directory

/-- A message that is posted and handled at once. -/
def Message.handle (message : Message) : List Action := [.post message, .arrive 0, .hand 0]

/-- A file is loaded, and the read of it is about to run. -/
def loadRun : List Action :=
  (Message.registerFiletype 7 0 0).handle ++ (Message.registerLibrary 1).handle ++
    (Message.fileScan ⟨1, ['a'], []⟩).handle ++
    (Message.loadIndependent ⟨5, spell ['a'], 7, 0, 0, 0⟩).handle ++ [.request]

theorem reached_noStale_load : ∃ x, steps (step spell) System.initial
    (loadRun ++ [.run 0 [], .arrive 0]) = .ok x ∧ x.delayedMessages.length = 1 ∧
      NoStale spell x := by
  obtain ⟨x, hx, hlength⟩ : ∃ x, steps (step spell) System.initial
      (loadRun ++ [.run 0 [], .arrive 0]) = .ok x ∧ x.delayedMessages.length = 1 := ⟨_, rfl, rfl⟩
  exact ⟨x, hx, hlength, reached_noStale spell (Reachable.initial.run _ rfl hx)⟩

/-- The file is unloaded and loaded again while the messages of its read are on their way. -/
def staleRun : List Action :=
  loadRun ++ [.post (.unloadIndependent 5), .post (.loadIndependent ⟨6, spell ['a'], 7, 0, 0, 0⟩),
    .run 0 [], .arrive 0, .hand 0, .arrive 0, .hand 0, .arrive 0]

/-- The read of the first load makes the second one ready, whose loadcall has not run. -/
theorem stale_readycall : ∃ x y, steps (step spell) System.initial staleRun = .ok x ∧
    ¬ NoStale spell x ∧ steps (step spell) x [.hand 0, .run 1 []] = .ok y ∧
      y.log = [.loadcall 0 [], .removed 0, .readycall 1 6] := by
  refine ⟨_, _, rfl, fun h => ?_, rfl, rfl⟩
  obtain ⟨call, hsender, hcurrent⟩ := h.own _ List.mem_cons_self (spell ['a']) rfl
  cases hsender
  have hcall := hcurrent _ 1 rfl rfl
  cases hcall

end Fimbulwinter.Loader
