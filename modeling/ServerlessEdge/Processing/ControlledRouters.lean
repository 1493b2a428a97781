import ServerlessEdge.Controller.HierFinal
import ServerlessEdge.Processing.Routing

/-! The routers under the hierarchical controller: their tables change as it commands, in whatever
order its commands are carried out and whichever get lost. -/
namespace ServerlessEdge.Processing
open Library Forwarding
open Std (ExtTreeMap)
open Controller (EdgeControllerHier Network)

variable {P : Policy ℚ}

namespace EdgeRouter

/-- What the server of the tables does to one of them to carry out a command. -/
inductive Carries (q : EdgeRouterConf ℚ) : Event P → Prop
  | change (r : P.Reading) (aForward : Bool) (haction : q.action = .CHANGE)
      (hfinal : aForward = true → q.final = true) :
      Carries q (.call aForward (.change r q.lambda q.destination q.weight q.final))
  | remove (r : P.Reading) (aForward : Bool) (haction : q.action = .REMOVE) :
      Carries q (.call aForward (.remove r q.lambda q.destination))
  | flush (aForward : Bool) (l : String) (haction : q.action = .FLUSH) :
      Carries q (.call aForward (.removeLambda l))

/-- What the optimizers of a router do to its tables. -/
inductive Reweighs : Event P → Prop
  | changeWeight (aForward : Bool) (r : P.Reading) (l d : String) (w : ℚ) :
      Reweighs (.call aForward (.changeWeight r l d w))
  | multiply (aForward : Bool) (r : P.Reading) (l d : String) (w : ℚ) :
      Reweighs (.call aForward (.multiply r l d w))
  | update (aForward : Bool) : Reweighs (.update aForward)

variable {s : EdgeRouter P} {x : Event P} {p : String × String}

/-- A pair is new in a table only if the table is told of it. -/
theorem flags_change (f : Bool) (p : String × String) (hp : ((change x s).flags f p).isSome) :
    (s.flags f p).isSome ∨ ∃ r w b, x = .call f (.change r p.1 p.2 w b) := by
  cases x with
  | update g =>
    left
    rw [flags] at hp ⊢
    rw [change] at hp
    split at hp
    · rwa [table_setOptimizer] at hp
    · exact hp
  | call g c =>
    rw [flags, change, table_setTable] at hp
    split at hp
    · next heq =>
      subst heq
      rcases TypedTable.flags_step (s.table f) c p with hsame | hnone | ⟨r, l, d, w, b, rfl, rfl, -⟩
      · rw [hsame] at hp
        exact .inl hp
      · rw [hnone] at hp
        cases hp
      · exact .inr ⟨r, w, b, rfl⟩
    · exact .inl hp

/-- The final table gets the final destinations of commands only. -/
theorem Carries.final {q : EdgeRouterConf ℚ} (h : Carries (P := P) q x)
    (hp : ((EdgeRouter.change x s).flags true p).isSome) :
    (s.flags true p).isSome ∨ q.action = .CHANGE ∧ q.final = true ∧ p.2 = q.destination := by
  obtain ⟨l, d⟩ := p
  rcases flags_change true (l, d) hp with hold | ⟨r, w, b, rfl⟩
  · exact .inl hold
  · cases h with
    | change r f haction hfinal => exact .inr ⟨haction, hfinal rfl, rfl⟩

theorem Reweighs.final (h : Reweighs x) (hp : ((change x s).flags true p).isSome) :
    (s.flags true p).isSome := by
  rcases flags_change true p hp with hold | ⟨r, w, b, rfl⟩
  · exact hold
  · cases h

end EdgeRouter

namespace Routers

/-- Requests come from clients, and the tables are changed by commands of the controller and by the
optimizers only. -/
def Controlled (n : Network) : Event P → Prop
  | .client _ _ aReq => aReq.forward = false ∧ aReq.hops = 0
  | .change _ x => EdgeRouter.Reweighs x ∨
    ∃ f q b, Controller.Event.command f q b ∈ n.log ∧ EdgeRouter.Carries q x
  | _ => True

variable {conf : Conf} {n : Network} {R : String → Prop} {s : Routers P}

/-- No command makes a final destination of a router. -/
theorem Controlled.disciplined {x : Event P} (h : Controlled n x)
    (hn : EdgeControllerHier.SortedNetwork R n) (hs : Follows (depth R) s) : Disciplined (depth R) s x := by
  cases x with
  | client e key aReq => exact h
  | change e x =>
    intro m hm p hp
    have hold := (hs.nodes e m hm).tables p
    rcases h with hweighs | ⟨f, q, b, hmem, hcarries⟩
    · exact hold (hweighs.final hp)
    · rcases hcarries.final hp with hsome | ⟨haction, hfinal, hdest⟩
      · exact hold hsome
      · rw [hdest, hn.sent f q b hmem haction, hfinal]
        exact Bool.noConfusion
  | _ => trivial

theorem follows_controlled {aRouters : ExtTreeMap String (LocalOptimizer × LocalOptimizer)}
    {events : List (Event P)} (hn : EdgeControllerHier.SortedNetwork (· ∈ aRouters) n)
    (hx : ∀ x ∈ events, Controlled n x) (hlisted : Runs.Along (step conf) Listed (new aRouters) events) :
    ∀ t ∈ Runs.states (step conf) (new aRouters) events, Follows (depth (· ∈ aRouters)) t := by
  refine Runs.invariant_along (P := fun s x => Controlled n x ∧ Listed s x)
    (fun t x ht hx => follows_step ht (hx.1.disciplined hn ht) hx.2) ?_
    ((Runs.Along.of_forall hx _).and hlisted)
  exact follows_new aRouters (fun _ => Iff.rfl) fun e o o' p hp => absurd hp (flags_new o o' true p)

section Run

/-- The controller has commanded that change. -/
def commanded (n : Network) (l d : String) (w : ℚ) (aFinal : Bool) : Bool := n.log.any fun
  | .command _ q _ => q.action = .CHANGE ∧ q.lambda = l ∧ q.destination = d ∧ q.weight = w ∧
    q.final = aFinal
  | _ => false

theorem controlled_of_commanded {l d : String} {w : ℚ} {b : Bool} (h : commanded n l d w b = true)
    (e : String) (r : P.Reading) {f : Bool} (hf : f = true → b = true) :
    Controlled n (.change e (.call f (.change r l d w b))) := by
  obtain ⟨x, hx, htest⟩ := List.any_eq_true.mp h
  cases x with
  | command ep q answered =>
    obtain ⟨action, l', d', w', final⟩ := q
    obtain ⟨ha, rfl, rfl, rfl, rfl⟩ := of_decide_eq_true htest
    exact .inr ⟨ep, _, answered, hx, .change r f ha hf⟩
  | _ => cases htest

private def threeOptimizers : ExtTreeMap String (LocalOptimizer × LocalOptimizer) :=
  .ofList [("a:1", LocalOptimizer.none, LocalOptimizer.none),
    ("b:1", LocalOptimizer.none, LocalOptimizer.none), ("c:1", LocalOptimizer.none, LocalOptimizer.none)]

private def homePolicy : Policy ℚ := TypedTable.EntryType.policy TypedTable.rationals 1 1 .Random

private def answers : Input (EdgeRouter.processor homePolicy) where
  reading := ((0 : ℚ), 0)
  outcome := .ok ({ retcode := "OK" }, 1)
  random := 0

/-- A computer at the first router, and a request that comes to the third one. -/
private def viaHome : List (Event homePolicy) :=
  [.change "a:1" (.call false (.change (0 : ℚ) "lambda0" "a:5" 1 true)),
    .change "c:1" (.call false (.change (0 : ℚ) "lambda0" "a:1" 1 false)),
    .client "c:1" 0 { name := "lambda0" }, .advance "c:1" 0 answers, .advance "c:1" 0 answers,
    .change "a:1" (.call true (.change (0 : ℚ) "lambda0" "a:5" 1 true)), .deliver 0 0,
    .advance "a:1" 0 answers, .advance "a:1" 0 answers]

/-- The network once three routers and the computer have been announced. -/
private def threeAnnounced : Network :=
  (Runs.final (EdgeControllerHier.step (EdgeControllerHier.loses 11 id))
    (EdgeControllerHier.new EdgeControllerHier.threeNodes .MinMax EdgeControllerHier.threeServers)
    EdgeControllerHier.threeRouters).theDerived.theNetwork

end Run

end Routers
end ServerlessEdge.Processing
