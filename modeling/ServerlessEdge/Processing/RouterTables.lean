import ServerlessEdge.Forwarding.Listed
import ServerlessEdge.Processing.EdgeRouter

/-! What serving a request does to the tables of a router: pairs go, none comes. -/
namespace ServerlessEdge.Processing
open Library Forwarding Triple
open Estimator (LambdaResponse)

namespace EdgeRouter

variable {P : Policy ℚ} {r : Reading P} {aReq : Rpc.LambdaRequest} {s s' : EdgeRouter P} {d : String}

/-- What one of the tables says of each pair. -/
def flags (s : EdgeRouter P) (aForward : Bool) : String × String → Option Bool :=
  (s.table aForward).plain.flags

theorem table_setTable (s : EdgeRouter P) (f f' : Bool) (t : TypedTable P) :
    (s.setTable f t).table f' = if f' = f then t else s.table f' := by
  cases f <;> cases f' <;> rfl

theorem flags_new (o o' : LocalOptimizer) (f : Bool) (p : String × String) :
    (⟨.new, o, .new, o'⟩ : EdgeRouter P).flags f p = none := by
  cases f <;> simp [flags, table, TypedTable.plain, TypedTable.new, ForwardingTable.flags,
    ForwardingTable.find]

/-- No pair is new or has another flag. -/
def Shrinks (s s' : EdgeRouter P) : Prop :=
  ∀ f p, s'.flags f p = s.flags f p ∨ s'.flags f p = none

theorem Shrinks.refl (s : EdgeRouter P) : Shrinks s s := fun _ _ => .inl rfl

/-- What holds of all the pairs that are left held before. -/
theorem Shrinks.isSome (h : Shrinks s s') {f : Bool} {p : String × String}
    (hp : (s'.flags f p).isSome) : (s.flags f p).isSome := by
  rcases h f p with hsame | hnone
  · rw [← hsame]
    exact hp
  · rw [hnone] at hp
    cases hp

theorem shrinks_setTable {f : Bool} {t : TypedTable P} (h : t.plain.flags = s.flags f) :
    Shrinks s (s.setTable f t) := by
  intro f' p
  rw [flags, table_setTable]
  split
  · next hf =>
    rw [h, hf]
    exact .inl rfl
  · exact .inl rfl

theorem shrinks_destination : Shrinks s (after (destination r aReq) s) := by
  rw [after, destination]
  obtain ⟨d, t, hok, hplain⟩ | ⟨⟨err, herr⟩, -⟩ :=
    (s.table aReq.forward).operator_cases r.1 aReq.name
  · rw [hok]
    exact shrinks_setTable (congrArg ForwardingTable.flags hplain)
  · rw [herr]
    exact shrinks_setTable rfl

theorem shrinks_reweigh (w : ℚ) : Shrinks s (after (reweigh r aReq d w) s) := by
  obtain ⟨t, hcases, hflags⟩ :=
    ForwardingTable.changeWeight_cases (s.table aReq.forward).plain aReq.name d w
  rw [← TypedTable.plain_changeWeight r.1] at hcases
  rw [after, reweigh]
  cases hrun : TypedTable.changeWeight r.1 aReq.name d w (s.table aReq.forward) with
  | ok u t' =>
    rw [hrun] at hcases
    have hplain : t'.plain = t := by
      rcases hcases with hok | ⟨err, herr⟩
      · exact (EStateM.Result.ok.inj hok).2
      · cases herr
    exact shrinks_setTable (hplain ▸ hflags)
  | error err t' =>
    rw [hrun] at hcases
    have hplain : t'.plain = t := by
      rcases hcases with hok | ⟨err, herr⟩
      · cases hok
      · exact (EStateM.Result.error.inj herr).2
    exact shrinks_setTable (hplain ▸ hflags)

theorem shrinks_processSuccess (t : ℚ) : Shrinks s (after (processSuccess r aReq d t) s) := by
  have hoptimizer (o : LocalOptimizer) (s' : EdgeRouter P)
      (h : Shrinks (s.setOptimizer aReq.forward o) s') : Shrinks s s' := by
    intro f p
    have hp := h f p
    rw [flags, flags, table_setOptimizer] at hp
    exact hp
  unfold after processSuccess
  dsimp only
  cases ((s.optimizer aReq.forward).operator r.2 aReq.name d t).1 with
  | none => exact hoptimizer _ _ (.refl _)
  | some w => exact hoptimizer _ _ (shrinks_reweigh w)

theorem flags_remove (l : String) (f : Bool) (p : String × String) :
    ((s.table f).remove r.1 l d).plain.flags p = s.flags f p ∨
      ((s.table f).remove r.1 l d).plain.flags p = none := by
  rw [TypedTable.plain_remove, ForwardingTable.flags_remove, Function.update_apply]
  split
  · exact .inr rfl
  · exact .inl rfl

theorem shrinks_purge {purge : EdgeRouter P → EdgeRouter P}
    (h : purge ∈ processFailure r aReq d) (s : EdgeRouter P) : Shrinks s (purge s) := by
  rcases List.mem_pair.mp h with rfl | rfl
  · intro f p
    cases f with
    | false => exact flags_remove (s := s) aReq.name false p
    | true => exact .inl rfl
  · intro f p
    cases f with
    | false => exact .inl rfl
    | true => exact flags_remove (s := s) aReq.name true p

variable (conf : Conf) (key : ℕ) (i : Input (processor P))

/-- Serving a request takes pairs out of the tables at most. -/
theorem shrinks_process (s : EdgeRouter P) (q : Request) :
    Shrinks s (process conf key i s q).1 := by
  rcases process_state conf key i s q with h | h | ⟨d, ret, t, h⟩ | ⟨d, purge, hpurge, h⟩
  · rw [h]
    exact .refl s
  · rw [h]
    exact shrinks_destination
  · rw [h]
    exact shrinks_processSuccess t
  · rw [h]
    exact shrinks_purge hpurge s

/-- A destination is what the table chooses. -/
theorem destination_ok (h : destination r aReq s = .ok d s') : ∃ t,
    TypedTable.operator r.1 aReq.name (s.table aReq.forward) = .ok d t := by
  rw [destination] at h
  cases hrun : TypedTable.operator r.1 aReq.name (s.table aReq.forward) with
  | ok d' t =>
    rw [hrun] at h
    cases h
    exact ⟨t, rfl⟩
  | error err t =>
    rw [hrun] at h
    cases h

section Listing

variable (L : Lists P)

/-- Both tables choose listed destinations. -/
def Good (s : EdgeRouter P) : Prop := ∀ f, (s.table f).Good L

variable {L}

theorem Good.setTable (h : s.Good L) {t : TypedTable P} (ht : t.Good L) (f : Bool) :
    (s.setTable f t).Good L := by
  intro f'
  rw [table_setTable]
  split
  · exact ht
  · exact h f'

theorem Good.setOptimizer (h : s.Good L) (f : Bool) (o : LocalOptimizer) :
    (s.setOptimizer f o).Good L := by
  intro f'
  rw [table_setOptimizer]
  exact h f'

theorem Good.change (h : s.Good L) (e : Event P) : (EdgeRouter.change e s).Good L := by
  cases e with
  | call f c => exact h.setTable ((h f).step c) f
  | update f =>
    rw [EdgeRouter.change]
    split
    · exact h.setOptimizer f _
    · exact h

theorem Good.destination (h : s.Good L) : (after (destination r aReq) s).Good L := by
  rw [after, EdgeRouter.destination]
  cases hrun : TypedTable.operator r.1 aReq.name (s.table aReq.forward) with
  | ok d t => exact h.setTable ((h aReq.forward).operator hrun).2 _
  | error err t =>
    obtain ⟨d, t', hok, -⟩ | ⟨⟨err', herr⟩, -⟩ :=
      (s.table aReq.forward).operator_cases r.1 aReq.name
    · cases hrun.symm.trans hok
    · obtain ⟨-, rfl⟩ := EStateM.Result.error.inj (hrun.symm.trans herr)
      exact h.setTable (h aReq.forward) _

theorem Good.reweigh (h : s.Good L) (w : ℚ) : (after (reweigh r aReq d w) s).Good L := by
  have htable := (h aReq.forward).changeWeight r.1 aReq.name d w
  rw [after] at htable
  rw [after, EdgeRouter.reweigh]
  cases hrun : TypedTable.changeWeight r.1 aReq.name d w (s.table aReq.forward) with
  | ok u t =>
    rw [hrun] at htable
    exact h.setTable htable _
  | error err t =>
    rw [hrun] at htable
    exact h.setTable htable _

theorem Good.processSuccess (h : s.Good L) (t : ℚ) :
    (after (processSuccess r aReq d t) s).Good L := by
  unfold after EdgeRouter.processSuccess
  dsimp only
  cases ((s.optimizer aReq.forward).operator r.2 aReq.name d t).1 with
  | none => exact h.setOptimizer _ _
  | some w => exact (h.setOptimizer _ _).reweigh w

theorem Good.purge (h : s.Good L) {purge : EdgeRouter P → EdgeRouter P}
    (hp : purge ∈ processFailure r aReq d) : (purge s).Good L := by
  rcases List.mem_pair.mp hp with rfl | rfl
  · intro f
    cases f with
    | false => exact (h false).remove r.1 aReq.name d
    | true => exact h true
  · intro f
    cases f with
    | false => exact h false
    | true => exact (h true).remove r.1 aReq.name d

/-- Serving a request keeps the tables good. -/
theorem Good.process {s : EdgeRouter P} (h : s.Good L) (q : Request) :
    EdgeRouter.Good L (process conf key i s q).1 := by
  rcases process_state conf key i s q with hs | hs | ⟨d, ret, t, hs⟩ | ⟨d, purge, hpurge, hs⟩
  · rw [hs]
    exact h
  · rw [hs]
    exact h.destination
  · rw [hs]
    exact h.processSuccess t
  · rw [hs]
    exact h.purge hpurge

end Listing

end EdgeRouter
end ServerlessEdge.Processing
