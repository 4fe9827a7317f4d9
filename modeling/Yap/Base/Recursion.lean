-- SUMMARY: Recursive procedures as trees of nested calls, runs of bounded depth, and termination as the absence of a call nested in itself.
import Mathlib

/-!
# Recursive procedures

The body of a call returns, or it makes a nested call and goes on with what that
call returned. A run bounds the depth of the nesting.
-/

namespace Yap

/-- The body of a call. -/
inductive Body (κ ω : Type*) where
  | ret (w : ω)
  | call (c : κ) (k : ω → Body κ ω)

namespace Body

variable {κ ω : Type*}

/-- Runs a body, given what its nested calls return. -/
def exec (f : κ → Option ω) : Body κ ω → Option ω
  | ret w => some w
  | call c k => (f c).bind fun w => exec f (k w)

/-- Runs a call with a bound on the depth of the nesting. -/
def run (body : κ → Body κ ω) : ℕ → κ → Option ω
  | 0, _ => none
  | n + 1, c => exec (run body n) (body c)

variable {body : κ → Body κ ω}

theorem exec_call {f : κ → Option ω} {c : κ} {k : ω → Body κ ω} {w : ω} :
    exec f (call c k) = some w ↔ ∃ w', f c = some w' ∧ exec f (k w') = some w :=
  Option.bind_eq_some_iff

theorem exec_mono {f g : κ → Option ω} (h : ∀ c w, f c = some w → g c = some w) {b : Body κ ω} {w : ω}
    (hb : exec f b = some w) : exec g b = some w := by
  induction b with
  | ret w' => exact hb
  | call c k ih =>
    obtain ⟨w', hc, hk⟩ := exec_call.1 hb
    exact exec_call.2 ⟨w', h c w' hc, ih w' hk⟩

theorem run_succ {n : ℕ} {c : κ} {w : ω} (h : run body n c = some w) : run body (n + 1) c = some w := by
  induction n generalizing c w with
  | zero => cases h
  | succ n ih => exact exec_mono (fun c w => ih) h

theorem run_le {m n : ℕ} (hle : m ≤ n) {c : κ} {w : ω} (h : run body m c = some w) :
    run body n c = some w := by
  induction hle with
  | refl => exact h
  | step _ ih => exact run_succ ih

variable (body) in
/-- The call returns. -/
def Returns (c : κ) (w : ω) : Prop := ∃ n, run body n c = some w

theorem Returns.unique {c : κ} {w w' : ω} (h : Returns body c w) (h' : Returns body c w') : w = w' := by
  obtain ⟨m, h⟩ := h
  obtain ⟨n, h'⟩ := h'
  exact Option.some.inj ((run_le (le_max_left m n) h).symm.trans (run_le (le_max_right m n) h'))

variable (body) in
/-- The body returns when its nested calls do. -/
def Yields (b : Body κ ω) (w : ω) : Prop := ∃ n, exec (run body n) b = some w

theorem returns_of_yields {c : κ} {w : ω} (h : Yields body (body c) w) : Returns body c w := by
  obtain ⟨n, h⟩ := h
  exact ⟨n + 1, h⟩

theorem yields_ret (w : ω) : Yields body (ret w) w := ⟨0, rfl⟩

theorem yields_call {c : κ} {k : ω → Body κ ω} {w' w : ω} (hc : Returns body c w')
    (hk : Yields body (k w') w) : Yields body (call c k) w := by
  obtain ⟨m, hm⟩ := hc
  obtain ⟨n, hn⟩ := hk
  refine ⟨max m n, exec_call.2 ⟨w', run_le (le_max_left m n) hm, ?_⟩⟩
  exact exec_mono (fun _ _ => run_le (le_max_right m n)) hn

-- ---------------------------------------------------------------------------
-- Nested calls
-- ---------------------------------------------------------------------------

variable (body) in
/-- The calls that a body makes, one after another, as far as it gets. -/
inductive Makes : Body κ ω → κ → Prop
  | here {c : κ} {k : ω → Body κ ω} : Makes (call c k) c
  | later {c c' : κ} {k : ω → Body κ ω} {w : ω} : Returns body c w → Makes (k w) c' → Makes (call c k) c'

variable (body) in
/-- The first call is made by the second one. -/
def Calls (c' c : κ) : Prop := Makes body (body c) c'

/-- A body returns if all the calls that it makes return. -/
theorem exists_exec {b : Body κ ω} (h : ∀ c, Makes body b c → ∃ w, Returns body c w) :
    ∃ n w, exec (run body n) b = some w := by
  induction b with
  | ret w => exact ⟨0, w, rfl⟩
  | call c k ih =>
    obtain ⟨w', m, hm⟩ := h c .here
    obtain ⟨n, w, hn⟩ := ih w' fun c' hc' => h c' (.later ⟨m, hm⟩ hc')
    refine ⟨max m n, w, exec_call.2 ⟨w', run_le (le_max_left m n) hm, ?_⟩⟩
    exact exec_mono (fun _ _ => run_le (le_max_right m n)) hn

/-- The calls that a body makes return before it. -/
theorem Makes.returns {b : Body κ ω} {c : κ} (h : Makes body b c) {n : ℕ} {w : ω}
    (hb : exec (run body n) b = some w) : ∃ w', run body n c = some w' := by
  induction h with
  | here =>
    obtain ⟨w', hc, -⟩ := exec_call.1 hb
    exact ⟨w', hc⟩
  | later hret _ ih =>
    obtain ⟨w', hc, hk⟩ := exec_call.1 hb
    rw [Returns.unique hret ⟨n, hc⟩] at ih
    exact ih hk

/-- A call returns exactly if no chain of nested calls goes on for ever. -/
theorem exists_returns_iff (c : κ) : (∃ w, Returns body c w) ↔ Acc (Calls body) c := by
  constructor
  · rintro ⟨w, n, h⟩
    induction n generalizing c w with
    | zero => cases h
    | succ n ih =>
      refine ⟨c, fun c' hc' => ?_⟩
      obtain ⟨w', hw'⟩ := hc'.returns h
      exact ih c' w' hw'
  · intro h
    induction h with
    | intro c _ ih =>
      obtain ⟨n, w, hw⟩ := exists_exec ih
      exact ⟨w, n + 1, hw⟩

-- ---------------------------------------------------------------------------
-- Finitely many calls
-- ---------------------------------------------------------------------------

theorem not_rel_of_acc {α : Type*} {r : α → α → Prop} {a : α} (h : Acc r a) : ¬ r a a := by
  induction h with
  | intro a _ ih => exact fun ha => ih a ha ha

/-- Where finitely many elements are below, only a cycle makes a descent go on
for ever. -/
theorem acc_iff_acyclic {α : Type*} {r : α → α → Prop} {a : α}
    (hfin : {b | Relation.ReflTransGen r b a}.Finite) :
    Acc r a ↔ ∀ b, Relation.ReflTransGen r b a → ¬ Relation.TransGen r b b := by
  constructor
  · intro h b hb
    have hacc : Acc r b := by
      rcases Relation.reflTransGen_iff_eq_or_transGen.1 hb with rfl | hb
      · exact h
      · exact h.inv_of_transGen hb
    exact not_rel_of_acc hacc.transGen
  · intro h
    have : Finite {b | Relation.ReflTransGen r b a} := hfin
    let below : {b | Relation.ReflTransGen r b a} → {b | Relation.ReflTransGen r b a} → Prop :=
      fun x y => Relation.TransGen r x.1 y.1
    have htrans : IsTrans _ below := ⟨fun _ _ _ => Relation.TransGen.trans⟩
    have hirrefl : Std.Irrefl below := ⟨fun x => h x.1 x.2⟩
    have hwf : WellFounded below := Finite.wellFounded_of_trans_of_irrefl below
    have hall : ∀ x : {b | Relation.ReflTransGen r b a}, Acc r x.1 := by
      intro x
      induction x using hwf.induction with
      | _ x ih =>
        refine ⟨x.1, fun y hy => ?_⟩
        exact ih ⟨y, Relation.ReflTransGen.head hy x.2⟩ (.single hy)
    exact hall ⟨a, .refl⟩

-- ---------------------------------------------------------------------------
-- Results that are handed on
-- ---------------------------------------------------------------------------

/-- The body hands the results in `A` of its nested calls on, and has no others. -/
def Passes (A : ω → Prop) : Body κ ω → Prop
  | ret w => ¬ A w
  | call _ k => ∀ w, (A w → k w = ret w) ∧ (¬ A w → Passes A (k w))

variable (body) in
/-- The call itself ends with a result in `A`. -/
def Aborts (A : ω → Prop) (c : κ) : Prop := ∃ w, body c = ret w ∧ A w

variable {A : ω → Prop}

/-- A result in `A` comes from a nested call. -/
theorem Passes.exists_makes {b : Body κ ω} (hp : Passes A b) {n : ℕ} {w : ω}
    (h : exec (run body n) b = some w) (hw : A w) : ∃ c, Makes body b c ∧ run body n c = some w := by
  induction b with
  | ret w' =>
    obtain rfl := Option.some.inj h
    exact absurd hw hp
  | call c k ih =>
    obtain ⟨w', hc, hk⟩ := exec_call.1 h
    by_cases hA : A w'
    · rw [(hp w').1 hA] at hk
      obtain rfl := Option.some.inj hk
      exact ⟨c, .here, hc⟩
    · obtain ⟨c', hmakes, hc'⟩ := ih w' ((hp w').2 hA) hk
      exact ⟨c', .later ⟨n, hc⟩ hmakes, hc'⟩

/-- A result in `A` of a nested call is the result. -/
theorem Makes.passes {b : Body κ ω} {c : κ} (hm : Makes body b c) (hp : Passes A b) {n : ℕ} {w v : ω}
    (h : exec (run body n) b = some w) (hc : Returns body c v) (hv : A v) : w = v := by
  induction hm with
  | here =>
    obtain ⟨w', hc', hk⟩ := exec_call.1 h
    obtain rfl := hc.unique ⟨n, hc'⟩
    rw [(hp v).1 hv] at hk
    exact (Option.some.inj hk).symm
  | @later c c' k u hret hmakes ih =>
    obtain ⟨w', hc', hk⟩ := exec_call.1 h
    obtain rfl := hret.unique ⟨n, hc'⟩
    by_cases hA : A u
    · rw [(hp u).1 hA] at hmakes
      cases hmakes
    · exact ih ((hp u).2 hA) hk hc

/-- The result is in `A` exactly if some call below aborts. -/
theorem returns_aborts_iff (hbody : ∀ c, Passes A (body c) ∨ Aborts body A c) {c : κ} {w : ω}
    (h : Returns body c w) :
    A w ↔ ∃ c', Relation.ReflTransGen (Calls body) c' c ∧ Aborts body A c' := by
  constructor
  · obtain ⟨n, h⟩ := h
    intro hw
    induction n generalizing c with
    | zero => cases h
    | succ n ih =>
      rcases hbody c with hp | habort
      · obtain ⟨c1, hmakes, hc1⟩ := hp.exists_makes h hw
        obtain ⟨c', hreach, habort⟩ := ih hc1
        exact ⟨c', hreach.tail hmakes, habort⟩
      · exact ⟨c, .refl, habort⟩
  · rintro ⟨c', hreach, w', hbody', hw'⟩
    induction hreach generalizing w with
    | refl =>
      obtain ⟨n, h⟩ := h
      cases n with
      | zero => cases h
      | succ n =>
        rw [run, hbody'] at h
        exact Option.some.inj h ▸ hw'
    | @tail b c _ hcall ih =>
      obtain ⟨n, h⟩ := h
      cases n with
      | zero => cases h
      | succ n =>
        obtain ⟨v, hv⟩ := Makes.returns hcall h
        have hA := ih ⟨n, hv⟩
        rcases hbody c with hp | ⟨u, hu, -⟩
        · rwa [hcall.passes hp h ⟨n, hv⟩ hA]
        · rw [Calls, hu] at hcall
          cases hcall

/-- Where finitely many calls are below, a call ends without a result in `A`
exactly if no call below is nested in itself and none aborts. -/
theorem returns_without_iff (hbody : ∀ c, Passes A (body c) ∨ Aborts body A c) {c : κ}
    (hfin : {c' | Relation.ReflTransGen (Calls body) c' c}.Finite) :
    (∃ w, Returns body c w ∧ ¬ A w) ↔ ∀ c', Relation.ReflTransGen (Calls body) c' c →
      ¬ Relation.TransGen (Calls body) c' c' ∧ ¬ Aborts body A c' := by
  constructor
  · rintro ⟨w, hw, hA⟩ c' hc'
    refine ⟨(acc_iff_acyclic hfin).1 ((exists_returns_iff c).1 ⟨w, hw⟩) c' hc', fun habort => ?_⟩
    exact hA ((returns_aborts_iff hbody hw).2 ⟨c', hc', habort⟩)
  · intro h
    obtain ⟨w, hw⟩ := (exists_returns_iff c).2 ((acc_iff_acyclic hfin).2 fun c' hc' => (h c' hc').1)
    refine ⟨w, hw, fun hA => ?_⟩
    obtain ⟨c', hc', habort⟩ := (returns_aborts_iff hbody hw).1 hA
    exact (h c' hc').2 habort

-- ---------------------------------------------------------------------------
-- Contracts
-- ---------------------------------------------------------------------------

/-- The body ends as `post` says, if its nested calls end as their contracts say. -/
def Keeps (contract : κ → ω → Prop) (post : ω → Prop) : Body κ ω → Prop
  | ret w => post w
  | call c k => ∀ w, contract c w → Keeps contract post (k w)

/-- A contract that every body keeps holds of every call that returns. -/
theorem Returns.contract {contract : κ → ω → Prop} (h : ∀ c, Keeps contract (contract c) (body c))
    {c : κ} {w : ω} (hw : Returns body c w) : contract c w := by
  obtain ⟨n, hw⟩ := hw
  induction n generalizing c w with
  | zero => cases hw
  | succ n ih =>
    have hexec : ∀ {b : Body κ ω} {post : ω → Prop}, Keeps contract post b →
        exec (run body n) b = some w → post w := by
      intro b post hb hrun
      induction b with
      | ret w' => exact Option.some.inj hrun ▸ hb
      | call c' k ihb =>
        obtain ⟨v, hv, hk⟩ := exec_call.1 hrun
        exact ihb v (hb v (ih hv)) hk
    exact hexec (h c) hw

/-- The calls that the body makes are in `I`, if they end as their contracts say. -/
def Visits (contract : κ → ω → Prop) (I : κ → Prop) : Body κ ω → Prop
  | ret _ => True
  | call c k => I c ∧ ∀ w, contract c w → Visits contract I (k w)

theorem Visits.mono {contract : κ → ω → Prop} {I J : κ → Prop} (h : ∀ c, I c → J c) {b : Body κ ω}
    (hb : Visits contract I b) : Visits contract J b := by
  induction b with
  | ret w => trivial
  | call c k ih => exact ⟨h c hb.1, fun w hw => ih w (hb.2 w hw)⟩

theorem Makes.visits {contract : κ → ω → Prop} (hcontract : ∀ c w, Returns body c w → contract c w)
    {I : κ → Prop} {b : Body κ ω} {c : κ} (h : Makes body b c) (hb : Visits contract I b) : I c := by
  induction h with
  | here => exact hb.1
  | later hret _ ih => exact ih (hb.2 _ (hcontract _ _ hret))

/-- What the bodies keep of their nested calls holds of all the calls below. -/
theorem invariant {contract : κ → ω → Prop} (hcontract : ∀ c w, Returns body c w → contract c w)
    {I : κ → Prop} (hI : ∀ c, I c → Visits contract I (body c)) {c c' : κ} (hc : I c)
    (h : Relation.ReflTransGen (Calls body) c' c) : I c' := by
  induction h using Relation.ReflTransGen.head_induction_on with
  | refl => exact hc
  | head hcall _ ih => exact hcall.visits hcontract (hI _ ih)

end Body

end Yap
