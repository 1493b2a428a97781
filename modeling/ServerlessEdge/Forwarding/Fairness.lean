import ServerlessEdge.Library.Turns
import ServerlessEdge.Forwarding.ActiveSet
import ServerlessEdge.Forwarding.TypedTable

/-! How often an entry that takes turns chooses each of its active destinations. -/
namespace ServerlessEdge.Forwarding.EntryRoundRobin
open Library Turns
open Std (ExtTreeMap)

variable {W : Type} [Field W] [LinearOrder W]

/-- What has been charged to a destination so far. -/
def debt (s : State W) (aDest : String) : W :=
  ((s.theCache[aDest]?).map CacheElement.theDeficit).getD 0

/-- What a turn of a destination costs. -/
def cost (s : State W) (aDest : String) : W :=
  ((s.theCache[aDest]?).map CacheElement.theWeight).getD 0

section Choices

variable {s s' : State W} {d : String} {c : CacheElement W}

theorem Charges.debt_eq (h : Charges s d s' c) :
    debt s' = Function.update (debt s) d (debt s d + cost s d) := by
  funext k
  rw [debt, h.charged, Function.update_apply]
  by_cases hk : k = d
  · rw [if_pos hk, if_pos hk, debt, cost, h.cached]
    rfl
  · rw [if_neg hk, if_neg hk]
    rfl

theorem Charges.cost_eq (h : Charges s d s' c) : cost s' = cost s := by
  funext k
  rw [cost, h.charged, cost]
  by_cases hk : k = d
  · rw [if_pos hk, hk, h.cached]
    rfl
  · rw [if_neg hk]

theorem Charges.debt_le (h : Charges s d s' c) (hlive : ∀ k ∈ s.theQueue, k ∈ s.theCache) :
    ∀ k ∈ s.theQueue, debt s d ≤ debt s k := by
  intro k hk
  obtain ⟨c', hc'⟩ := Maps.lookup_of_mem (hlive k hk)
  rw [debt, debt, h.cached, hc']
  exact h.least k hk c' hc'

end Choices

variable [IsStrictOrderedRing W] (aStat : SummaryStat W) (theMax : W)

/-- The destinations chosen one after the other. -/
def turns (e : PolicyEntry (policy aStat theMax)) : List (Reading W) → List String
  | [] => []
  | r :: rs => match e.operator r with
    | .ok (aDest, e') => aDest :: turns e' rs
    | .error _ => turns e rs

variable {aStat theMax} {e : PolicyEntry (policy aStat theMax)} {us : List String}

theorem Active.cost_pos (h : Active e.entry us e.state) :
    ∀ k ∈ State.theQueue e.state, 0 < cost e.state k := by
  intro k hk
  obtain ⟨c, hc⟩ := Maps.lookup_of_mem (h.live k hk)
  have hfits : Fits e.entry e.state := e.fits
  obtain ⟨x, hx, hweight⟩ := hfits.caches.listed hc
  have hcost : cost e.state k = c.theWeight := by
    unfold cost
    rw [hc]
    rfl
  rw [hcost, ← hweight]
  exact hfits.caches.positive k x hx

/-- The choices of an entry with destinations are turns. -/
theorem picks_turns (h : Active e.entry us e.state) (he : e.empty = false) (rs : List (Reading W)) :
    (turns aStat theMax e rs).length = rs.length ∧ ∃ debts,
      Picks (State.theQueue e.state) (cost e.state) (debt e.state) (turns aStat theMax e rs) debts := by
  induction rs generalizing e with
  | nil => exact ⟨rfl, _, .nil _⟩
  | cons r rs ih =>
    obtain ⟨hempty, -⟩ | ⟨d, e', c, hop, hentry, hcharges⟩ :=
      turns_of_active (p := (e, us)) h (.operator r)
    · have hnone : e.empty = true := List.isEmpty_iff.mpr hempty
      rw [he] at hnone
      cases hnone
    · dsimp only at hop hentry hcharges
      have hactive : Active e'.entry us e'.state := hentry ▸ h.charged hcharges
      have hempty : e'.empty = false := by
        rw [PolicyEntry.empty, hentry]
        exact he
      obtain ⟨hlength, debts, hpicks⟩ := ih hactive hempty
      rw [hcharges.queue, hcharges.cost_eq, hcharges.debt_eq] at hpicks
      have hturns : turns aStat theMax e (r :: rs) = d :: turns aStat theMax e' rs := by
        rw [turns, hop]
      rw [hturns]
      exact ⟨congrArg (· + 1) hlength, debts,
        .cons hcharges.active (hcharges.debt_le h.live) hpicks⟩

theorem active_final (calls : List (PolicyEntry.Call (policy aStat theMax))) :
    ∃ us, Active (Runs.final PolicyEntry.step PolicyEntry.new calls).entry us
      (Runs.final PolicyEntry.step PolicyEntry.new calls).state := by
  refine Runs.invariant (I := fun e : PolicyEntry (policy aStat theMax) =>
    ∃ us, Active e.entry us e.state) (fun e c h => ?_) calls ⟨[], active_new⟩ _
    (Runs.final_mem_states _ _ _)
  obtain ⟨us, h⟩ := h
  exact ⟨_, active_watch (p := (e, us)) h c⟩

/-- One destination is as fast as two turns of the other, which has been waiting. -/
private def unequal : List (PolicyEntry.Call
    (policy TypedTable.rationals.aStat TypedTable.rationals.theMax)) :=
  let r : Reading ℚ := ⟨0, 0, fun _ => 0, 0⟩
  [.change r "dest1:666" 1 true, .change r "dest2:666" 2 true, .changeWeight r "dest1:666" 1,
    .operator r]

end ServerlessEdge.Forwarding.EntryRoundRobin
