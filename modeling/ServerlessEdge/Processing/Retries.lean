import ServerlessEdge.Processing.RouterTables

/-! The retries of one request in a router whose tables get no new destinations for
its lambda meanwhile: each attempt that fails takes its destination out of both
tables. -/
namespace ServerlessEdge.Processing
open Library Forwarding Triple
open Estimator (LambdaResponse)

/-- The destination of a message. -/
def Action.sent? : Action → Option String
  | .sent d => some d
  | _ => none

/-- The destinations that a request was sent to, in order. -/
def Request.contacted (q : Request) : List String := q.actions.filterMap Action.sent?

theorem Request.contacted_act (q : Request) (a : Action) :
    (q.act a).contacted = q.contacted ++ a.sent?.toList := by
  rw [contacted, act, contacted, List.filterMap_append]
  cases a <;> rfl

namespace EdgeRouter

variable {P : Policy ℚ} {r : Reading P} {aReq : Rpc.LambdaRequest} {s s' : EdgeRouter P}
  {l d : String} {q : Request}

/-- No table lists the destination. -/
def Gone (s : EdgeRouter P) (l d : String) : Prop := ∀ f, s.flags f (l, d) = none

/-- No table gets a new destination for the lambda. -/
def Loses (l : String) (s s' : EdgeRouter P) : Prop :=
  ∀ f d, s.flags f (l, d) = none → s'.flags f (l, d) = none

theorem Shrinks.loses (h : Shrinks s s') (l : String) : Loses l s s' := by
  intro f d hnone
  rcases h f (l, d) with hsame | hgone
  · rw [hsame, hnone]
  · exact hgone

theorem Gone.loses (h : Gone s l d) (hl : Loses l s s') : Gone s' l d := fun f => hl f d (h f)

/-- All the destinations that a request was sent to are gone, but perhaps one. -/
def Purged (s : EdgeRouter P) (q : Request) (aCurrent : Option String) : Prop :=
  ∀ d ∈ q.contacted, some d ≠ aCurrent → Gone s q.aReq.name d

theorem Purged.loses {c : Option String} (h : Purged s q c) (hl : Loses q.aReq.name s s') :
    Purged s' q c := fun d hd hne => (h d hd hne).loses hl

theorem Purged.weaken (h : Purged s q none) (c : Option String) : Purged s q c :=
  fun d hd _ => h d hd nofun

/-- Nothing but what was done and what for matters. -/
theorem Purged.congr {q' : Request} {c : Option String} (h : Purged s q c)
    (hreq : q'.aReq = q.aReq) (hactions : q'.contacted = q.contacted) : Purged s q' c := by
  intro d hd hne
  rw [hreq]
  exact h d (hactions ▸ hd) hne

/-- Where a request is, and what is left of the destinations that it was sent to. -/
def Stage (s : EdgeRouter P) (q : Request) : Prop :=
  match q.phase with
  | .looping => Purged s q none
  | .chosen d => Purged s q none ∧ d ≠ "" ∧ d ∉ q.contacted
  | .waiting d => Purged s q (some d) ∧ d ≠ ""
  | .served d ret _ =>
    Purged s q (some d) ∧ d ≠ "" ∧ ret.retcode = "OK" ∧ .returned d ret ∈ q.actions
  | .failing d n => Purged s q (some d) ∧ d ≠ "" ∧
    (1 ≤ n → s.flags false (q.aReq.name, d) = none) ∧
    (2 ≤ n → s.flags true (q.aReq.name, d) = none)
  | .finished ret =>
    if ret.retcode = "OK" then ∃ d, .returned d ret ∈ q.actions ∧ Purged s q (some d)
    else Purged s q none ∧ ∀ d, s.flags q.aReq.forward (q.aReq.name, d) = none

/-- A request is sent to no destination twice. -/
structure Retried (s : EdgeRouter P) (q : Request) : Prop where
  nodup : q.contacted.Nodup
  stage : Stage s q
  named : Gone s q.aReq.name ""

/-- The changes made by others leave it at that. -/
theorem Retried.loses (h : Retried s q) (hl : Loses q.aReq.name s s') : Retried s' q := by
  refine ⟨h.nodup, ?_, h.named.loses hl⟩
  have hstage := h.stage
  unfold Stage at hstage ⊢
  split at hstage
  · exact hstage.loses hl
  · exact ⟨hstage.1.loses hl, hstage.2⟩
  · exact ⟨hstage.1.loses hl, hstage.2⟩
  · exact ⟨hstage.1.loses hl, hstage.2⟩
  · obtain ⟨hpurged, hne, hoverall, hfinal⟩ := hstage
    exact ⟨hpurged.loses hl, hne, fun hn => hl _ _ (hoverall hn), fun hn => hl _ _ (hfinal hn)⟩
  · split at hstage
    · obtain ⟨d, hret, hpurged⟩ := hstage
      rw [if_pos (by assumption)]
      exact ⟨d, hret, hpurged.loses hl⟩
    · rw [if_neg (by assumption)]
      exact ⟨hstage.1.loses hl, fun d => hl _ _ (hstage.2 d)⟩

/-- Every choice for the request is in the table, whatever is read from outside. -/
def Chooses (s : EdgeRouter P) (aReq : Rpc.LambdaRequest) : Prop :=
  ∀ r d t, TypedTable.operator r aReq.name (s.table aReq.forward) = .ok d t →
    (s.flags aReq.forward (aReq.name, d)).isSome

/-- A destination is missing only if the table has none. -/
theorem destination_error {err : String} (h : destination r aReq s = .error err s') :
    err ≠ "OK" ∧ ∀ d, s.flags aReq.forward (aReq.name, d) = none := by
  rw [destination] at h
  obtain ⟨d, t, hok, -⟩ | ⟨⟨err', herr⟩, hempty⟩ :=
    (s.table aReq.forward).operator_cases r.1 aReq.name
  · rw [hok] at h
    cases h
  · rw [herr] at h
    cases h
    refine ⟨TableError.what_ne_ok _, fun d => ?_⟩
    rw [flags, ForwardingTable.flags]
    cases he : (s.table aReq.forward).theTable[aReq.name]? with
    | none =>
      have hplain : (s.table aReq.forward).plain.theTable[aReq.name]? = none := by
        rw [TypedTable.plain_getElem?, he, Option.map_none]
      simp [ForwardingTable.find, hplain]
    | some e =>
      have hplain : (s.table aReq.forward).plain.theTable[aReq.name]? = some e.entry := by
        rw [TypedTable.plain_getElem?, he, Option.map_some]
      rw [ForwardingTable.find_of_entry hplain, (Entry.empty_iff e.entry).mp (hempty e he) d]
      rfl

section Steps

/-- A failed attempt: the destination is to be purged. -/
theorem Retried.fail (hnodup : q.contacted.Nodup) (hnamed : Gone s q.aReq.name "")
    (hpurged : Purged s q (some d)) (hd : d ≠ "") (aErr : String) : Retried s (q.fail aErr d) := by
  have hfail : q.fail aErr d = { q with myRetCode := aErr, phase := .failing d 0 } := by
    rw [Request.fail]
    exact if_neg hd
  rw [hfail]
  exact ⟨hnodup, ⟨hpurged.congr rfl rfl, hd, fun hn => absurd hn (by decide), fun hn => absurd hn (by decide)⟩, hnamed⟩

/-- The client has returned a response. -/
theorem Retried.received (hnodup : q.contacted.Nodup) (hnamed : Gone s q.aReq.name "")
    (hpurged : Purged s q (some d)) (hd : d ≠ "") (ret : LambdaResponse) (t : ℚ) :
    Retried s (received d ret t q) := by
  let q' := { q with myRetCode := ret.retcode }.act (.returned d ret)
  have hcontacted : q'.contacted = q.contacted := by
    rw [Request.contacted_act]
    exact List.append_nil _
  have hpurged' : Purged s q' (some d) := hpurged.congr rfl hcontacted
  unfold Processing.received
  dsimp only
  split
  · next hok =>
    refine ⟨hcontacted ▸ hnodup, ⟨hpurged', hd, hok, ?_⟩, hnamed⟩
    exact List.mem_append_right _ List.mem_cons_self
  · exact .fail (q := q') (hcontacted ▸ hnodup) hnamed hpurged' hd ret.retcode

variable (conf : Conf) (key : ℕ) (i : Input (processor P))

/-- A destination is chosen that the request was not sent to yet, or there is none. -/
theorem Retried.looping (h : Retried s q) (hphase : q.phase = .looping) (hhops : q.aReq.hops ≤ 254)
    (hchoice : Chooses s q.aReq) :
    Retried (P := P) (process conf key i s q).1 (process conf key i s q).2 := by
  have hl := (shrinks_process conf key i s q).loses q.aReq.name
  have hstage := (h.loses hl).stage
  have hnamed := (h.loses hl).named
  simp only [Stage, hphase] at hstage
  simp only [process, hphase, if_neg (Nat.not_lt.mpr hhops)] at hl hstage hnamed ⊢
  cases hrun : (processor P).destination i.reading key q.aReq s with
  | ok d s' =>
    obtain ⟨t, ht⟩ := destination_ok hrun
    have hlisted := hchoice _ d t ht
    simp only [hrun] at hstage hnamed ⊢
    refine ⟨h.nodup, ⟨hstage.congr rfl rfl, ?_, fun hmem => ?_⟩, hnamed⟩
    · rintro rfl
      rw [h.named] at hlisted
      cases hlisted
    · have hgone : Purged s q none := by simpa only [Stage, hphase] using h.stage
      rw [hgone d hmem (Option.some_ne_none d)] at hlisted
      cases hlisted
  | error err s' =>
    obtain ⟨herr, hnone⟩ := destination_error hrun
    simp only [hrun] at hl hstage hnamed ⊢
    have hfail : q.fail err "" = { q with myRetCode := err, phase := .finished { retcode := err } } := rfl
    rw [hfail]
    refine ⟨h.nodup, ?_, hnamed⟩
    show if err = "OK" then _ else _
    rw [if_neg herr]
    exact ⟨hstage.congr rfl rfl, fun d => hl _ d (hnone d)⟩

theorem Retried.chosen (h : Retried s q) (hphase : q.phase = .chosen d) :
    Retried (P := P) (process conf key i s q).1 (process conf key i s q).2 := by
  have hstage := h.stage
  simp only [Stage, hphase] at hstage
  obtain ⟨hpurged, hd, hnew⟩ := hstage
  simp only [process, hphase]
  split
  · exact Retried.received h.nodup h.named (hpurged.weaken _) hd { retcode := "OK" }
      (1 / 1000 + i.random)
  · have hcontacted : ({ q with phase := .waiting d }.act (.sent d)).contacted = q.contacted ++ [d] :=
      Request.contacted_act _ _
    refine ⟨?_, ⟨fun d' hd' hne => ?_, hd⟩, h.named⟩
    · rw [hcontacted, List.nodup_append]
      refine ⟨h.nodup, List.nodup_singleton d, fun d' hd' d'' hd'' => ?_⟩
      rw [List.mem_singleton.mp hd'']
      exact fun heq => hnew (heq ▸ hd')
    · rw [hcontacted, List.mem_append, List.mem_singleton] at hd'
      rcases hd' with hd' | rfl
      · exact hpurged d' hd' (Option.some_ne_none d')
      · exact absurd rfl hne

theorem Retried.waiting (h : Retried s q) (hphase : q.phase = .waiting d) :
    Retried (P := P) (process conf key i s q).1 (process conf key i s q).2 := by
  have hstage := h.stage
  simp only [Stage, hphase] at hstage
  obtain ⟨hpurged, hd⟩ := hstage
  simp only [process, hphase]
  cases i.outcome with
  | ok ret => exact .received h.nodup h.named hpurged hd ret.1 ret.2
  | error err => exact .fail h.nodup h.named hpurged hd err

theorem Retried.served {ret : LambdaResponse} {t : ℚ} (h : Retried s q)
    (hphase : q.phase = .served d ret t) :
    Retried (P := P) (process conf key i s q).1 (process conf key i s q).2 := by
  have h' := h.loses ((shrinks_process conf key i s q).loses q.aReq.name)
  have hstage := h'.stage
  simp only [Stage, hphase] at hstage
  obtain ⟨hpurged, hd, hok, hret⟩ := hstage
  have hnamed := h'.named
  simp only [process, hphase] at hpurged hnamed ⊢
  cases hrun : (processor P).processSuccess i.reading key q.aReq d ret t s with
  | ok u s' =>
    simp only [hrun] at hpurged hnamed ⊢
    refine ⟨h.nodup, ?_, hnamed⟩
    show if ret.retcode = "OK" then _ else _
    rw [if_pos hok]
    exact ⟨d, hret, hpurged.congr rfl rfl⟩
  | error err s' =>
    simp only [hrun] at hpurged hnamed ⊢
    exact .fail h.nodup hnamed hpurged hd err

/-- The destination is taken out of one table, then out of the other one. -/
theorem Retried.failing {n : ℕ} (h : Retried s q) (hphase : q.phase = .failing d n) :
    Retried (P := P) (process conf key i s q).1 (process conf key i s q).2 := by
  have h' := h.loses ((shrinks_process conf key i s q).loses q.aReq.name)
  have hstage := h'.stage
  simp only [Stage, hphase] at hstage
  obtain ⟨hpurged, hd, hoverall, hfinal⟩ := hstage
  have hnamed := h'.named
  have hnext (n : ℕ) : ({ q with phase := .failing d (n + 1) }.act (.purged d)).contacted =
      q.contacted := (Request.contacted_act _ _).trans (List.append_nil _)
  simp only [process, hphase] at hpurged hnamed hoverall hfinal ⊢
  rcases n with _ | _ | n
  · refine ⟨(hnext 0).symm ▸ h.nodup, ⟨hpurged.congr rfl (hnext 0), hd, fun _ => ?_, fun hn => absurd hn (by decide)⟩, hnamed⟩
    show ((s.table false).remove i.reading.1 q.aReq.name d).plain.flags (q.aReq.name, d) = none
    rw [TypedTable.plain_remove, ForwardingTable.flags_remove, Function.update_self]
  · refine ⟨(hnext 1).symm ▸ h.nodup, ⟨hpurged.congr rfl (hnext 1), hd, fun _ => hoverall le_rfl,
      fun _ => ?_⟩, hnamed⟩
    show ((s.table true).remove i.reading.1 q.aReq.name d).plain.flags (q.aReq.name, d) = none
    rw [TypedTable.plain_remove, ForwardingTable.flags_remove, Function.update_self]
  · have hgone : Gone s q.aReq.name d := by
      intro f
      cases f with
      | false => exact hoverall (by omega)
      | true => exact hfinal (by omega)
    have hnone : Purged s q none := by
      intro d' hd' _
      by_cases heq : d' = d
      · exact heq ▸ hgone
      · exact hpurged d' hd' fun h => heq (Option.some.inj h)
    have hcontacted : ({ q with phase := .looping }.act (.withdrawn d)).contacted = q.contacted :=
      (Request.contacted_act _ _).trans (List.append_nil _)
    show Retried s (if conf.theControllerClient then _ else _)
    split
    · exact ⟨hcontacted.symm ▸ h.nodup, hnone.congr rfl hcontacted, hnamed⟩
    · exact ⟨h.nodup, hnone.congr rfl rfl, hnamed⟩

theorem Retried.process (h : Retried s q) (hhops : q.aReq.hops ≤ 254)
    (hchoice : q.phase = .looping → Chooses s q.aReq) :
    Retried (P := P) (process conf key i s q).1 (process conf key i s q).2 := by
  cases hphase : q.phase with
  | looping => exact h.looping conf key i hphase hhops (hchoice hphase)
  | chosen d => exact h.chosen conf key i hphase
  | waiting d => exact h.waiting conf key i hphase
  | served d ret t => exact h.served conf key i hphase
  | failing d n => exact h.failing conf key i hphase
  | finished ret =>
    have hsame : Processing.process conf key i s q = (s, q) := by
      simp only [Processing.process, hphase]
      rfl
    rw [hsame]
    exact h

end Steps

end EdgeRouter
end ServerlessEdge.Processing
