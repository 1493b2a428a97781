import ServerlessEdge.Computer.EdgeComputer
import ServerlessEdge.Library.Maps
import ServerlessEdge.Library.Runs

/-! The descriptors of the executions that wait for their tasks. -/
namespace ServerlessEdge.Computer
open Std Library Messages Maps

/-- What a thread waits for. -/
structure Descriptor where
  theDone : Bool
  theResponse : Option Rpc.LambdaResponse

/-- How far a call of blockingExecution has come: its task has been started, it waits
for the response, or it has ended after that response, normally or by an exception. -/
inductive Execution where
  | started (aReq : Rpc.LambdaRequest)
  | waiting (aReq : Rpc.LambdaRequest)
  | ended (aResponse : Rpc.LambdaResponse) (theResult : Except String Rpc.LambdaResponse)

/-- The threads that execute functions or report tasks, by the task. The notified
tasks are all those reported so far. -/
structure Threads where
  theSystem : System
  theExecutions : ExtTreeMap Nat Execution
  theDescriptors : ExtTreeMap Nat Descriptor
  /-- The calls of taskDone that have not found a descriptor yet. -/
  theNotifications : List (Nat × Rpc.LambdaResponse)
  theNotified : List (Nat × Rpc.LambdaResponse)

namespace Threads

/-- A step in which a thread holds the lock. -/
inductive Turn where
  /-- The function realExecution returns a new identifier. -/
  | start (aId : Nat) (aReq : Rpc.LambdaRequest)
  /-- A descriptor is created. -/
  | insert (aId : Nat)
  | taskDone (aId : Nat) (aResponse : Rpc.LambdaResponse)
  /-- A call of taskDone finds that its descriptor is there. -/
  | find (i : Nat)
  /-- The thread that waits for a response goes on. -/
  | resume (aId : Nat)
  /-- Something else happens to the computer or to the servers. -/
  | outside (aSystem : System)

/-- An exception ends an execution before its descriptor is erased. -/
def step (s : Threads) : Turn → Threads
  | .start aId aReq =>
    if aId ∈ s.theExecutions then s
    else { s with theExecutions := s.theExecutions.insert aId (.started aReq) }
  | .insert aId => match s.theExecutions[aId]? with
    | some (.started aReq) =>
      { s with
        theExecutions := s.theExecutions.insert aId (.waiting aReq)
        theDescriptors := s.theDescriptors.insert aId ⟨false, none⟩ }
    | _ => s
  | .taskDone aId aResponse =>
    { s with
      theNotifications := s.theNotifications ++ [(aId, aResponse)]
      theNotified := (aId, aResponse) :: s.theNotified }
  | .find i => match s.theNotifications[i]? with
    | none => s
    | some (aId, aResponse) =>
      if aId ∈ s.theDescriptors then
        { s with
          theDescriptors := s.theDescriptors.insert aId ⟨true, some aResponse⟩
          theNotifications := s.theNotifications.eraseIdx i }
      else s
  | .resume aId => match s.theExecutions[aId]?, s.theDescriptors[aId]? with
    | some (.waiting aReq), some ⟨true, some myResp⟩ =>
      match EdgeComputer.handleRemoteStates aReq myResp s.theSystem with
      | .ok myRet s' =>
        { s with
          theSystem := s'
          theExecutions := s.theExecutions.insert aId (.ended myResp (.ok myRet))
          theDescriptors := s.theDescriptors.erase aId }
      | .error err s' =>
        { s with
          theSystem := s'
          theExecutions := s.theExecutions.insert aId (.ended myResp (.error err)) }
    | _, _ => s
  | .outside aSystem => { s with theSystem := aSystem }

def new (aSystem : System) : Threads where
  theSystem := aSystem
  theExecutions := ∅
  theDescriptors := ∅
  theNotifications := []
  theNotified := []

/-- The executions that have created a descriptor and have not ended. -/
def inProgress : Nat → Execution → Nat
  | _, .waiting _ => 1
  | _, _ => 0

/-- Every response goes to the descriptor, and the execution, of its own task, and
each report of a task arrives there or still waits for the descriptor. -/
structure Matched (s : Threads) : Prop where
  descriptor : ∀ id d, s.theDescriptors[id]? = some d →
    d.theDone = d.theResponse.isSome ∧ ∀ resp, d.theResponse = some resp → (id, resp) ∈ s.theNotified
  execution : ∀ id resp ret, s.theExecutions[id]? = some (.ended resp ret) →
    (id, resp) ∈ s.theNotified
  notification : ∀ n ∈ s.theNotifications, n ∈ s.theNotified
  arrived : ∀ n ∈ s.theNotified, n ∈ s.theNotifications ∨
    (∃ d, s.theDescriptors[n.1]? = some d ∧ d.theDone = true) ∨
    ∃ resp ret, s.theExecutions[n.1]? = some (.ended resp ret)

/-- There are descriptors for the executions in progress and for no others. -/
structure Counted (s : Threads) : Prop where
  entries : ∀ id, id ∈ s.theDescriptors ↔ ∃ aReq, s.theExecutions[id]? = some (.waiting aReq)
  size : s.theDescriptors.size = total inProgress s.theExecutions

/-- The thread that goes on does not fail to handle its remote states. -/
def Returns (s : Threads) : Turn → Prop
  | .resume aId => ∀ aReq myResp err s', s.theExecutions[aId]? = some (.waiting aReq) →
    s.theDescriptors[aId]? = some ⟨true, some myResp⟩ →
    EdgeComputer.handleRemoteStates aReq myResp s.theSystem ≠ .error err s'
  | _ => True

section Turns

variable {s : Threads} {id : Nat}

/-- What a turn does to the executions and to the descriptors. -/
inductive Change (s : Threads) : Turn → Threads → Prop
  | same (t : Turn) : Change s t s
  | start (id aReq) : id ∉ s.theExecutions → Change s (.start id aReq)
      { s with theExecutions := s.theExecutions.insert id (.started aReq) }
  | insert (id aReq) : s.theExecutions[id]? = some (.started aReq) → Change s (.insert id)
      { s with
        theExecutions := s.theExecutions.insert id (.waiting aReq)
        theDescriptors := s.theDescriptors.insert id ⟨false, none⟩ }
  | taskDone (id resp) : Change s (.taskDone id resp)
      { s with
        theNotifications := s.theNotifications ++ [(id, resp)]
        theNotified := (id, resp) :: s.theNotified }
  | find (i id resp) : s.theNotifications[i]? = some (id, resp) → id ∈ s.theDescriptors →
      Change s (.find i)
      { s with
        theDescriptors := s.theDescriptors.insert id ⟨true, some resp⟩
        theNotifications := s.theNotifications.eraseIdx i }
  | resume (id aReq resp ret s') : s.theExecutions[id]? = some (.waiting aReq) →
      s.theDescriptors[id]? = some ⟨true, some resp⟩ → Change s (.resume id)
      { s with
        theSystem := s'
        theExecutions := s.theExecutions.insert id (.ended resp (.ok ret))
        theDescriptors := s.theDescriptors.erase id }
  | leak (id aReq resp err s') : s.theExecutions[id]? = some (.waiting aReq) →
      s.theDescriptors[id]? = some ⟨true, some resp⟩ →
      EdgeComputer.handleRemoteStates aReq resp s.theSystem = .error err s' → Change s (.resume id)
      { s with
        theSystem := s'
        theExecutions := s.theExecutions.insert id (.ended resp (.error err)) }
  | outside (aSystem) : Change s (.outside aSystem) { s with theSystem := aSystem }

theorem step_change (s : Threads) (t : Turn) : Change s t (step s t) := by
  cases t with
  | start id aReq =>
    simp only [step]
    split
    · exact .same _
    · next h => exact .start id aReq h
  | insert id =>
    simp only [step]
    split
    · next aReq h => exact .insert id aReq h
    · exact .same _
  | taskDone id resp => exact .taskDone id resp
  | find i =>
    simp only [step]
    split
    · exact .same _
    · next id resp h =>
      split
      · next hmem => exact .find i id resp h hmem
      · exact .same _
  | resume id =>
    simp only [step]
    split
    · next aReq resp hexec hdesc =>
      split
      · next ret s' _ => exact .resume id aReq resp ret s' hexec hdesc
      · next err s' herr => exact .leak id aReq resp err s' hexec hdesc herr
    · exact .same _
  | outside aSystem => exact .outside aSystem

end Turns

section Executions

variable {s : Threads} {id : Nat} {aReq : Rpc.LambdaRequest} {resp : Rpc.LambdaResponse}

/-- An execution that has not created its descriptor has none. -/
theorem Counted.not_mem (hc : Counted s) (h : ∀ aReq, s.theExecutions[id]? ≠ some (.waiting aReq)) :
    id ∉ s.theDescriptors := by
  rw [hc.entries]
  rintro ⟨aReq, hexec⟩
  exact h aReq hexec

theorem Matched.start (hm : Matched s) (hnew : id ∉ s.theExecutions) : Matched
    { s with theExecutions := s.theExecutions.insert id (.started aReq) } where
  descriptor := hm.descriptor
  notification := hm.notification
  execution := by
    intro k resp ret hk
    rw [lookup_insert] at hk
    split at hk
    · cases hk
    · exact hm.execution k resp ret hk
  arrived := by
    intro n hn
    rcases hm.arrived n hn with h | h | ⟨resp, ret, h⟩
    · exact .inl h
    · exact .inr (.inl h)
    · have hne : n.1 ≠ id := fun heq => hnew (heq ▸ mem_of_lookup h)
      exact .inr (.inr ⟨resp, ret, by rw [lookup_insert, if_neg hne, h]⟩)

theorem Counted.start (hc : Counted s) (hnew : id ∉ s.theExecutions) : Counted
    { s with theExecutions := s.theExecutions.insert id (.started aReq) } where
  entries := by
    intro k
    rw [hc.entries, lookup_insert]
    split
    · next hk =>
      subst hk
      rw [ExtTreeMap.getElem?_eq_none hnew]
      constructor <;> rintro ⟨aReq, h⟩ <;> cases h
    · rfl
  size := by
    show s.theDescriptors.size = _
    rw [total_insert, total_erase_of_not_mem _ hnew, hc.size]
    exact (Nat.zero_add _).symm

theorem Matched.insert (hm : Matched s) (hno : id ∉ s.theDescriptors)
    (hexec : s.theExecutions[id]? = some (.started aReq)) : Matched
    { s with
      theExecutions := s.theExecutions.insert id (.waiting aReq)
      theDescriptors := s.theDescriptors.insert id ⟨false, none⟩ } where
  notification := hm.notification
  descriptor := by
    intro k d hk
    rw [lookup_insert] at hk
    split at hk
    · cases hk
      exact ⟨rfl, nofun⟩
    · exact hm.descriptor k d hk
  execution := by
    intro k resp ret hk
    rw [lookup_insert] at hk
    split at hk
    · cases hk
    · exact hm.execution k resp ret hk
  arrived := by
    intro n hn
    rcases hm.arrived n hn with h | ⟨d, h, hdone⟩ | ⟨resp, ret, h⟩
    · exact .inl h
    · have hne : n.1 ≠ id := fun heq => hno (heq ▸ mem_of_lookup h)
      exact .inr (.inl ⟨d, by rw [lookup_insert, if_neg hne, h], hdone⟩)
    · have hne : n.1 ≠ id := by
        rintro rfl
        rw [hexec] at h
        cases h
      exact .inr (.inr ⟨resp, ret, by rw [lookup_insert, if_neg hne, h]⟩)

theorem Counted.insert (hc : Counted s) (hno : id ∉ s.theDescriptors)
    (hexec : s.theExecutions[id]? = some (.started aReq)) : Counted
    { s with
      theExecutions := s.theExecutions.insert id (.waiting aReq)
      theDescriptors := s.theDescriptors.insert id ⟨false, none⟩ } where
  entries := by
    intro k
    rw [mem_insert, lookup_insert]
    by_cases hk : k = id
    · simp [hk]
    · simp only [hk, false_or, if_false, hc.entries]
  size := by
    show (s.theDescriptors.insert id ⟨false, none⟩).size = _
    rw [size_insert_of_not_mem hno, hc.size, total_of_lookup _ hexec, total_insert]
    simp only [inProgress]
    omega

theorem Matched.taskDone (hm : Matched s) (resp : Rpc.LambdaResponse) : Matched
    { s with
      theNotifications := s.theNotifications ++ [(id, resp)]
      theNotified := (id, resp) :: s.theNotified } where
  descriptor k d hk :=
    ⟨(hm.descriptor k d hk).1, fun r hr => List.mem_cons_of_mem _ ((hm.descriptor k d hk).2 r hr)⟩
  execution k r ret hk := List.mem_cons_of_mem _ (hm.execution k r ret hk)
  notification := by
    intro n hn
    rcases List.mem_append.mp hn with hn | hn
    · exact List.mem_cons_of_mem _ (hm.notification n hn)
    · rw [List.mem_singleton.mp hn]
      exact List.mem_cons_self
  arrived := by
    intro n hn
    rcases List.mem_cons.mp hn with rfl | hn
    · exact .inl (List.mem_append_right _ List.mem_cons_self)
    · exact (hm.arrived n hn).imp_left (List.mem_append_left _)

theorem Matched.find {i : Nat} (hm : Matched s) (hi : s.theNotifications[i]? = some (id, resp)) :
    Matched
      { s with
        theDescriptors := s.theDescriptors.insert id ⟨true, some resp⟩
        theNotifications := s.theNotifications.eraseIdx i } where
  execution := hm.execution
  descriptor := by
    intro k d hk
    rw [lookup_insert] at hk
    split at hk
    · next hkid =>
      cases hk
      refine ⟨rfl, fun r hr => ?_⟩
      rw [hkid, ← Option.some.inj hr]
      exact hm.notification _ (List.mem_of_getElem? hi)
    · exact hm.descriptor k d hk
  notification n hn := hm.notification n (List.eraseIdx_subset hn)
  arrived := by
    intro n hn
    rcases hm.arrived n hn with h | ⟨d, h, hdone⟩ | h
    · obtain ⟨j, hj⟩ := List.mem_iff_getElem?.mp h
      by_cases hij : j = i
      · subst hij
        rw [hi] at hj
        cases hj
        exact .inr (.inl ⟨_, by rw [lookup_insert, if_pos rfl], rfl⟩)
      · exact .inl (List.mem_eraseIdx_iff_getElem?.mpr ⟨j, hij, hj⟩)
    · refine .inr (.inl ?_)
      by_cases hid : n.1 = id
      · exact ⟨_, by rw [lookup_insert, if_pos hid], rfl⟩
      · exact ⟨d, by rw [lookup_insert, if_neg hid, h], hdone⟩
    · exact .inr (.inr h)

theorem Counted.find (hc : Counted s) (hmem : id ∈ s.theDescriptors)
    (theNotifications : List (Nat × Rpc.LambdaResponse)) : Counted
    { s with
      theDescriptors := s.theDescriptors.insert id ⟨true, some resp⟩
      theNotifications := theNotifications } where
  entries := by
    intro k
    rw [mem_insert, ← hc.entries]
    exact ⟨fun h => h.elim (fun heq => heq ▸ hmem) fun h => h, .inr⟩
  size := by
    show (s.theDescriptors.insert id ⟨true, some resp⟩).size = _
    rw [size_insert_of_mem hmem, hc.size]

theorem Matched.resume (hm : Matched s) (hdesc : s.theDescriptors[id]? = some ⟨true, some resp⟩)
    (ret : Rpc.LambdaResponse) (aSystem : System) : Matched
    { s with
      theSystem := aSystem
      theExecutions := s.theExecutions.insert id (.ended resp (.ok ret))
      theDescriptors := s.theDescriptors.erase id } where
  notification := hm.notification
  descriptor := by
    intro k d hk
    rw [lookup_erase] at hk
    split at hk
    · cases hk
    · exact hm.descriptor k d hk
  execution := by
    intro k resp' ret' hk
    rw [lookup_insert] at hk
    split at hk
    · next hkid =>
      cases hk
      exact hkid ▸ (hm.descriptor id _ hdesc).2 resp rfl
    · exact hm.execution k resp' ret' hk
  arrived := by
    intro n hn
    by_cases hid : n.1 = id
    · exact .inr (.inr ⟨resp, .ok ret, by rw [lookup_insert, if_pos hid]⟩)
    · rcases hm.arrived n hn with h | ⟨d, h, hdone⟩ | ⟨resp', ret', h⟩
      · exact .inl h
      · exact .inr (.inl ⟨d, by rw [lookup_erase, if_neg hid, h], hdone⟩)
      · exact .inr (.inr ⟨resp', ret', by rw [lookup_insert, if_neg hid, h]⟩)

theorem Counted.resume (hc : Counted s) (hexec : s.theExecutions[id]? = some (.waiting aReq))
    (hdesc : s.theDescriptors[id]? = some ⟨true, some resp⟩) (ret : Rpc.LambdaResponse)
    (aSystem : System) : Counted
    { s with
      theSystem := aSystem
      theExecutions := s.theExecutions.insert id (.ended resp (.ok ret))
      theDescriptors := s.theDescriptors.erase id } where
  entries := by
    intro k
    rw [mem_erase, lookup_insert]
    by_cases hk : k = id
    · simp [hk]
    · simp only [hk, ne_eq, not_false_eq_true, true_and, if_false, hc.entries]
  size := by
    show (s.theDescriptors.erase id).size = _
    rw [size_erase_of_mem (mem_of_lookup hdesc), hc.size, total_of_lookup _ hexec,
      total_insert]
    simp only [inProgress]
    omega

/-- An exception leaves a descriptor without an execution. -/
theorem not_counted_of_leak {err : String} {aSystem : System}
    (hdesc : s.theDescriptors[id]? = some ⟨true, some resp⟩) : ¬ Counted
    { s with
      theSystem := aSystem
      theExecutions := s.theExecutions.insert id (.ended resp (.error err)) } := by
  intro hc
  obtain ⟨aReq, h⟩ := (hc.entries id).mp (mem_of_lookup hdesc)
  rw [lookup_insert, if_pos rfl] at h
  cases h

end Executions

section Runs

theorem step_sound {s : Threads} {t : Turn} (hm : Matched s) (hc : Counted s) (h : Returns s t) :
    Matched (step s t) ∧ Counted (step s t) := by
  have hchange := step_change s t
  generalize step s t = s' at hchange ⊢
  cases hchange with
  | same => exact ⟨hm, hc⟩
  | start id aReq hnew => exact ⟨hm.start hnew, hc.start hnew⟩
  | insert id aReq hexec =>
    have hno : id ∉ s.theDescriptors := by
      apply hc.not_mem
      intro aReq' hwaiting
      rw [hexec] at hwaiting
      cases hwaiting
    exact ⟨hm.insert hno hexec, hc.insert hno hexec⟩
  | taskDone id resp => exact ⟨hm.taskDone resp, hc.entries, hc.size⟩
  | find i id resp hi hmem => exact ⟨hm.find hi, hc.find hmem _⟩
  | resume id aReq resp ret s' hexec hdesc =>
    exact ⟨hm.resume hdesc ret s', hc.resume hexec hdesc ret s'⟩
  | leak id aReq resp err s' hexec hdesc herr => exact absurd herr (h aReq resp err s' hexec hdesc)
  | outside aSystem =>
    exact ⟨⟨hm.descriptor, hm.execution, hm.notification, hm.arrived⟩, hc.entries, hc.size⟩

theorem returns_of_counted {s : Threads} {t : Turn} (h : Counted (step s t)) : Returns s t := by
  cases t with
  | resume id =>
    intro aReq resp err s' hexec hdesc herr
    simp only [step, hexec, hdesc, herr] at h
    exact not_counted_of_leak hdesc h
  | _ => trivial

theorem new_sound (aSystem : System) : Matched (new aSystem) ∧ Counted (new aSystem) := by
  have hnone : ∀ id : Nat, (∅ : ExtTreeMap Nat Descriptor)[id]? = none := fun id => by simp
  have hnone' : ∀ id : Nat, (∅ : ExtTreeMap Nat Execution)[id]? = none := fun id => by simp
  refine ⟨⟨?_, ?_, nofun, nofun⟩, ?_, rfl⟩
  · intro id d h
    rw [new, hnone] at h
    cases h
  · intro id resp ret h
    rw [new, hnone'] at h
    cases h
  · intro id
    rw [new, hnone']
    simp

/-- Every task is matched with its own descriptor and no descriptor outlives its
execution, in exactly the runs in which no execution fails to handle its remote states. -/
theorem descriptors_sound_iff (aSystem : System) (ts : List Turn) :
    (∀ s ∈ Library.Runs.states step (new aSystem) ts, Matched s ∧ Counted s) ↔
      Library.Runs.Along step Returns (new aSystem) ts := by
  refine Library.Runs.invariant_iff_along (fun s t h => ?_) (new_sound aSystem)
  exact ⟨fun h' => returns_of_counted h'.2, step_sound h.1 h.2⟩

/-- A function whose state is on a server, on a computer without a state server. -/
def leakTurns : List Turn :=
  let aReq : Rpc.LambdaRequest :=
    { name := "f0"
      states := (∅ : ExtTreeMap String Rpc.State).insert "s0"
        { location := "server1", content := "" } }
  [.start 0 aReq, .insert 0, .taskDone 0 {}, .find 0, .resume 0]

/-- The execution ends by an exception, and its descriptor stays. -/
theorem not_descriptors_sound : ¬ ∀ aSystem ts, ∀ s ∈ Library.Runs.states step (new aSystem) ts,
    Matched s ∧ Counted s := by
  intro h
  let aSystem : System := ⟨⟨"host0:6473", none, true, [], ∅⟩, ∅, [], [], []⟩
  obtain ⟨-, hc⟩ := h aSystem leakTurns _ (Library.Runs.final_mem_states step _ _)
  have hmem : 0 ∈ (Library.Runs.final step (new aSystem) leakTurns).theDescriptors :=
    mem_of_lookup (v := ⟨true, some {}⟩) rfl
  obtain ⟨aReq, hexec⟩ := (hc.entries 0).mp hmem
  have hended : (Library.Runs.final step (new aSystem) leakTurns).theExecutions[0]? =
      some (.ended {} (.error "cannot handle remote states without a state server")) := rfl
  rw [hended] at hexec
  cases hexec

end Runs

end Threads

end ServerlessEdge.Computer
