-- SUMMARY: What grammar bodies mean, and that the goals they are translated to run as they mean from a bound position to an unbound one.
import Yap.Grammar.Threads

/-!
# The meaning of grammar bodies

A body means a goal over its items, which act on a position and the rest of the
state. Its translation is a goal over variables for positions. Nonterminals,
terminals and goals in braces do anything: a run has the same answers in the same
order, whatever they do.
-/

namespace Yap

namespace Grammar

-- ---------------------------------------------------------------------------
-- Runs of bodies
-- ---------------------------------------------------------------------------

/-- What a body consists of. -/
inductive Item (τ : Type*) where
  | call (g : τ)
  | phrase (x : ℕ)
  | terminal (x : τ)
  | nonterminal (t : τ)

/-- The goal a body stands for. -/
def Body.meaning {τ : Type*} : Body τ → Goal (Item τ)
  | .var x => .atom (.phrase x)
  | .cut => .cut
  | .nil => .true
  | .cons x .nil => .atom (.terminal x)
  | .cons x r => .conj (.atom (.terminal x)) r.meaning
  | .braces g => .conj (g.map .call) .true
  | .conj t r => .conj t.meaning r.meaning
  | .arrow t r => .arrow t.meaning r.meaning
  | .neg t => .disj (.arrow t.meaning .fail) .true
  | .disj t r => .disj t.meaning r.meaning
  | .nonterminal t => .atom (.nonterminal t)

/-- What is called between two positions, which may be unbound: answers have the second. -/
abbrev Between (P σ R : Type*) := Option P → Option P → σ → (P → σ → R → R) → R → R

/-- What the parts of a body do, and the unification of two positions. -/
structure Interp (τ P σ R : Type*) where
  goals : Runner τ σ R
  phrase : ℕ → Between P σ R
  terminal : τ → Between P σ R
  nonterminal : τ → Between P σ R
  unify : P → P → σ → Option σ

variable {τ P σ R : Type*}

/-- A call from the position of a state. -/
def Between.from (f : Between P σ R) (q : P × σ) (sk : P × σ → R → R) (fk : R) : R :=
  f (some q.1) none q.2 (fun p rest r => sk (p, rest) r) fk

def Interp.items (I : Interp τ P σ R) : Runner (Item τ) (P × σ) R where
  call x q sk fk := I.goals.call x q.2 (fun rest r => sk (q.1, rest) r) fk
  exec
    | .call g, q, sk, fk => I.goals.exec g q.2 (fun rest r => sk (q.1, rest) r) fk
    | .phrase x, q, sk, fk => (I.phrase x).from q sk fk
    | .terminal x, q, sk, fk => (I.terminal x).from q sk fk
    | .nonterminal t, q, sk, fk => (I.nonterminal t).from q sk fk

-- ---------------------------------------------------------------------------
-- Runs of translated bodies
-- ---------------------------------------------------------------------------

/-- The values of positions that are not unified, and the rest of the state. -/
structure Env (P σ : Type*) where
  aliases : Aliases ℕ
  value : ℕ → Option P
  rest : σ

def Env.get (e : Env P σ) (v : ℕ) : Option P := e.value (e.aliases v)

def Env.set (e : Env P σ) (v : ℕ) (p : P) : Env P σ := { e with value := Function.update e.value (e.aliases v) (some p) }

/-- Unification of two variables for positions. -/
def Env.unify (unify : P → P → σ → Option σ) (e : Env P σ) (x y : ℕ) : Option (Env P σ) :=
  if e.aliases x = e.aliases y then some e
  else
    match e.get x, e.get y with
    | none, none => some { e with aliases := e.aliases.unify x y }
    | none, some p => some (e.set x p)
    | some p, none => some (e.set y p)
    | some p, some q => (unify p q e.rest).map fun rest => { e with rest := rest }

def Between.steps (f : Between P σ R) (s sr : ℕ) (e : Env P σ) (sk : Env P σ → R → R) (fk : R) : R :=
  f (e.get s) (e.get sr) e.rest (fun p rest r => sk { e.set sr p with rest := rest } r) fk

def Interp.steps (I : Interp τ P σ R) : Runner (Step τ) (Env P σ) R where
  call x e sk fk := I.goals.call x e.rest (fun rest r => sk { e with rest := rest } r) fk
  exec
    | .call g, e, sk, fk => I.goals.exec g e.rest (fun rest r => sk { e with rest := rest } r) fk
    | .phrase x s sr, e, sk, fk => (I.phrase x).steps s sr e sk fk
    | .terminal s x sr, e, sk, fk => (I.terminal x).steps s sr e sk fk
    | .nonterminal t s sr, e, sk, fk => (I.nonterminal t).steps s sr e sk fk
    | .unify s1 s, e, sk, fk => (e.unify I.unify s1 s).elim fk (sk · fk)

-- ---------------------------------------------------------------------------
-- Threads of positions in a run
-- ---------------------------------------------------------------------------

/-- A run of a threaded body is about to start: its first position is bound, the others are not, and no
two positions that are used are unified. -/
structure Ready (c : ℕ → ℕ) (b : Body τ) (toFill : ToFill) (last : Bool) (s sr n : ℕ) (e : Env P σ) (p : P) : Prop where
  coloured : Coloured c b toFill last s sr n
  start : c s = s
  finish : c sr = sr
  start_lt : s < n
  finish_lt : sr < n
  same : transparent b toFill last = true ↔ s = sr
  inj : ∀ x y, c x = x → c y = y → e.aliases x = e.aliases y → x = y
  here : e.get s = some p
  unbound : ∀ v, c v = v → v = sr ∨ n ≤ v ∧ v < n + positions b → v ≠ s → e.get v = none

/-- After an answer the last position is bound, and the others from outside the body are as before. -/
structure Passed (c : ℕ → ℕ) (b : Body τ) (s sr n : ℕ) (e e' : Env P σ) (p' : P) : Prop where
  aliases : e'.aliases = e.aliases
  there : e'.get sr = some p'
  frame : ∀ v, c v = v → v < n ∨ n + positions b ≤ v → (v = sr → s = sr) → e'.get v = e.get v

variable {c : ℕ → ℕ} {b t r : Body τ} {toFill : ToFill} {last : Bool} {s sr n : ℕ} {e e' e'' : Env P σ} {p p' p'' : P}

theorem get_set (e : Env P σ) (u v : ℕ) (p : P) :
    (e.set v p).get u = if e.aliases u = e.aliases v then some p else e.get u := Function.update_apply ..

/-- The last position is set. -/
theorem Ready.set (h : Ready c b toFill last s sr n e p) (hne : s ≠ sr) (p' : P) (rest : σ) :
    Passed c b s sr n e { e.set sr p' with rest := rest } p' where
  aliases := rfl
  there := (get_set e sr sr p').trans (if_pos rfl)
  frame v hv _ hsame := (get_set e v sr p').trans (if_neg fun heq => hne (hsame (h.inj v sr hv h.finish heq)))

/-- Nothing is consumed. -/
theorem Ready.stay (h : Ready c b toFill last s sr n e p) (heq : s = sr) (rest : σ) :
    Passed c b s sr n e { e with rest := rest } p where
  aliases := rfl
  there := heq ▸ h.here
  frame _ _ _ _ := rfl

theorem Ready.unbound_finish (h : Ready c b toFill last s sr n e p) (hne : s ≠ sr) : e.get sr = none :=
  h.unbound sr h.finish (.inl rfl) hne.symm

theorem Ready.unify (h : Ready c b toFill last s sr n e p) (hne : s ≠ sr) (unify : P → P → σ → Option σ) (rest : σ) :
    ({ e with rest := rest } : Env P σ).unify unify sr s = some { e.set sr p with rest := rest } ∧
      ({ e with rest := rest } : Env P σ).unify unify s sr = some { e.set sr p with rest := rest } := by
  have halias : e.aliases sr ≠ e.aliases s := fun heq => hne (h.inj sr s h.finish h.start heq).symm
  have hs : ({ e with rest := rest } : Env P σ).get s = some p := h.here
  have hsr : ({ e with rest := rest } : Env P σ).get sr = none := h.unbound_finish hne
  constructor
  · rw [Env.unify, if_neg halias, hsr, hs]
    rfl
  · rw [Env.unify, if_neg halias.symm, hs, hsr]
    rfl

theorem Ready.arrow (h : Ready c (.arrow t r) toFill last s sr n e p) : Ready c (.conj t r) toFill last s sr n e p :=
  ⟨h.coloured, h.start, h.finish, h.start_lt, h.finish_lt, h.same, h.inj, h.here, h.unbound⟩

/-- The position between the parts of a body. -/
def between (t r : Body τ) (toFill : ToFill) (last : Bool) (s sr n : ℕ) : ℕ :=
  middle (transparent t toFill false) (transparent r (fillAfter t toFill false) last) s sr n

theorem between_cases (t r : Body τ) (toFill : ToFill) (last : Bool) (s sr n : ℕ) :
    between t r toFill last s sr n = s ∨ between t r toFill last s sr n = sr ∨ between t r toFill last s sr n = n := by
  unfold between middle
  split_ifs
  · exact .inl rfl
  · exact .inr (.inl rfl)
  · exact .inr (.inr rfl)

theorem Ready.between_lt (h : Ready c (.conj t r) toFill last s sr n e p) : between t r toFill last s sr n < n + 1 := by
  have hs := h.start_lt
  have hsr := h.finish_lt
  rcases between_cases t r toFill last s sr n with heq | heq | heq <;> omega

theorem Ready.between_fixed (h : Ready c (.conj t r) toFill last s sr n e p) :
    c (between t r toFill last s sr n) = between t r toFill last s sr n := by
  have hm : c n = between t r toFill last s sr n := (coloured_conj h.coloured).1
  rcases between_cases t r toFill last s sr n with heq | heq | heq
  · rw [heq, h.start]
  · rw [heq, h.finish]
  · rw [heq] at hm ⊢
    exact hm

/-- The middle is the start exactly if the first part is transparent. -/
theorem Ready.between_start (h : Ready c (.conj t r) toFill last s sr n e p) :
    transparent t toFill false = true ↔ s = between t r toFill last s sr n := by
  have hs := h.start_lt
  constructor
  · exact fun ht => (if_pos ht).symm
  · intro heq
    by_contra ht
    unfold between middle at heq
    rw [if_neg ht] at heq
    split_ifs at heq with hr
    · exact ht (Bool.and_eq_true_iff.mp (h.same.mpr heq)).1
    · omega

theorem Ready.between_finish (h : Ready c (.conj t r) toFill last s sr n e p) :
    transparent r (fillAfter t toFill false) last = true ↔ between t r toFill last s sr n = sr := by
  have hsr := h.finish_lt
  constructor
  · intro hr
    unfold between middle
    split_ifs with ht
    · exact h.same.mp (Bool.and_eq_true_iff.mpr ⟨ht, hr⟩)
    · rfl
  · intro heq
    by_contra hr
    unfold between middle at heq
    split_ifs at heq with ht
    · exact hr (Bool.and_eq_true_iff.mp (h.same.mpr heq)).2
    · omega

theorem Ready.first (h : Ready c (.conj t r) toFill last s sr n e p) :
    Ready c t toFill false s (between t r toFill last s sr n) (n + 1) e p where
  coloured := (coloured_conj h.coloured).2.1
  start := h.start
  finish := h.between_fixed
  start_lt := Nat.lt_succ_of_lt h.start_lt
  finish_lt := h.between_lt
  same := h.between_start
  inj := h.inj
  here := h.here
  unbound v hv hmem hne := by
    have hpos : positions (.conj t r) = positions t + positions r + 1 := rfl
    refine h.unbound v hv ?_ hne
    rcases hmem with rfl | hmem
    · rcases between_cases t r toFill last s sr n with heq | heq | heq
      · exact absurd heq hne
      · exact .inl heq
      · exact .inr ⟨heq.ge, by omega⟩
    · exact .inr ⟨by omega, by omega⟩

theorem Ready.second (h : Ready c (.conj t r) toFill last s sr n e p)
    (hp : Passed c t s (between t r toFill last s sr n) (n + 1) e e' p') :
    Ready c r (fillAfter t toFill false) last (between t r toFill last s sr n) sr (n + 1 + positions t) e' p' where
  coloured := (coloured_conj h.coloured).2.2
  start := h.between_fixed
  finish := h.finish
  start_lt := by
    have hlt := h.between_lt
    omega
  finish_lt := by
    have hlt := h.finish_lt
    omega
  same := h.between_finish
  inj := hp.aliases ▸ h.inj
  here := hp.there
  unbound v hv hmem hne := by
    have hpos : positions (.conj t r) = positions t + positions r + 1 := rfl
    have hs := h.start_lt
    have hsr := h.finish_lt
    rw [hp.frame v hv (by omega) fun heq => absurd heq hne]
    refine h.unbound v hv (by omega) ?_
    rintro rfl
    rcases hmem with heq | hmem
    · exact hne (h.between_start.mp (Bool.and_eq_true_iff.mp (h.same.mpr heq)).1)
    · omega

theorem Passed.trans (h : Ready c (.conj t r) toFill last s sr n e p)
    (hp : Passed c t s (between t r toFill last s sr n) (n + 1) e e' p')
    (hp' : Passed c r (between t r toFill last s sr n) sr (n + 1 + positions t) e' e'' p'') :
    Passed c (.conj t r) s sr n e e'' p'' where
  aliases := hp'.aliases.trans hp.aliases
  there := hp'.there
  frame v hv hmem hsame := by
    have hpos : positions (.conj t r) = positions t + positions r + 1 := rfl
    have hs := h.start_lt
    have hsr := h.finish_lt
    have hboth : v = sr → transparent t toFill false = true ∧ transparent r (fillAfter t toFill false) last = true :=
      fun heq => Bool.and_eq_true_iff.mp (h.same.mpr (hsame heq))
    rw [hp'.frame v hv (by omega) fun heq => h.between_finish.mp (hboth heq).2,
      hp.frame v hv (by omega) fun heq => ?_]
    rcases between_cases t r toFill last s sr n with hm | hm | hm
    · exact hm.symm
    · exact h.between_start.mp (hboth (heq.trans hm)).1
    · omega

theorem Ready.left (h : Ready c (.disj t r) toFill last s sr n e p) : Ready c t none true s sr n e p where
  coloured := (coloured_disj h.coloured).1
  start := h.start
  finish := h.finish
  start_lt := h.start_lt
  finish_lt := h.finish_lt
  same := by
    rw [not_transparent (by decide)]
    exact h.same
  inj := h.inj
  here := h.here
  unbound v hv hmem hne := by
    have hpos : positions (.disj t r) = positions t + positions r := rfl
    exact h.unbound v hv (hmem.imp_right fun hmem => ⟨hmem.1, by omega⟩) hne

theorem Ready.right (h : Ready c (.disj t r) toFill last s sr n e p) :
    Ready c r none true s sr (n + positions t) e p where
  coloured := (coloured_disj h.coloured).2
  start := h.start
  finish := h.finish
  start_lt := Nat.lt_add_right _ h.start_lt
  finish_lt := Nat.lt_add_right _ h.finish_lt
  same := by
    rw [not_transparent (by decide)]
    exact h.same
  inj := h.inj
  here := h.here
  unbound v hv hmem hne := by
    have hpos : positions (.disj t r) = positions t + positions r := rfl
    exact h.unbound v hv (hmem.imp_right fun hmem => ⟨by omega, by omega⟩) hne

theorem Passed.left (hp : Passed c t s sr n e e' p') : Passed c (.disj t r) s sr n e e' p' where
  aliases := hp.aliases
  there := hp.there
  frame v hv hmem := hp.frame v hv (by
    have hpos : positions (.disj t r) = positions t + positions r := rfl
    omega)

theorem Passed.right (hp : Passed c r s sr (n + positions t) e e' p') : Passed c (.disj t r) s sr n e e' p' where
  aliases := hp.aliases
  there := hp.there
  frame v hv hmem := hp.frame v hv (by
    have hpos : positions (.disj t r) = positions t + positions r := rfl
    omega)

theorem Ready.neg (h : Ready c (.neg t) toFill last s sr n e p) :
    Ready c t toFill false s (middle (transparent t toFill false) false s n n) (n + 1) e p where
  coloured := (coloured_neg h.coloured).2
  start := h.start
  finish := by
    have hm := (coloured_neg h.coloured).1
    cases ht : transparent t toFill false with
    | true => exact h.start
    | false =>
      rw [ht] at hm
      exact hm
  start_lt := Nat.lt_succ_of_lt h.start_lt
  finish_lt := by
    have hs := h.start_lt
    unfold middle
    split_ifs <;> omega
  same := by
    have hs := h.start_lt
    cases ht : transparent t toFill false with
    | true => exact iff_of_true rfl rfl
    | false => exact iff_of_false Bool.false_ne_true hs.ne
  inj := h.inj
  here := h.here
  unbound v hv hmem hne := by
    have hpos : positions (.neg t) = positions t + 1 := rfl
    refine h.unbound v hv (.inr ?_) hne
    rcases hmem with rfl | hmem
    · unfold middle at hne ⊢
      split_ifs at hne ⊢
      · exact absurd rfl hne
      · exact ⟨le_rfl, by omega⟩
      · exact ⟨le_rfl, by omega⟩
    · exact ⟨by omega, by omega⟩

-- ---------------------------------------------------------------------------
-- Runs of threaded bodies
-- ---------------------------------------------------------------------------

variable (I : Interp τ P σ R)

/-- The threaded goal runs as its body means. -/
def Follows (c : ℕ → ℕ) (b : Body τ) : Prop :=
  ∀ ⦃toFill last s sr n⦄ ⦃e : Env P σ⦄ ⦃p⦄, Ready c b toFill last s sr n e p →
    ∀ ⦃sk : Env P σ → R → R⦄ ⦃sk' : P × σ → R → R⦄,
      (∀ e' p' x, Passed c b s sr n e e' p' → sk e' x = sk' (p', e'.rest) x) →
      ∀ fk ck, (thread b toFill last s sr n).run I.steps e sk fk ck = b.meaning.run I.items (p, e.rest) sk' fk ck

theorem part_steps : Goal.Part I.goals I.steps Step.call Env.rest fun e rest => { e with rest := rest } where
  get_put _ _ := rfl
  put_put _ _ _ := rfl
  put_get _ := rfl
  call _ _ _ _ := rfl
  exec _ _ _ _ := rfl

theorem part_items : Goal.Part I.goals I.items Item.call Prod.snd fun q rest => (q.1, rest) where
  get_put _ _ := rfl
  put_put _ _ _ := rfl
  put_get _ := rfl
  call _ _ _ _ := rfl
  exec _ _ _ _ := rfl

variable {I}

/-- A call from one position to another. -/
theorem Ready.steps (h : Ready c b toFill last s sr n e p) (hne : s ≠ sr) {f : Between P σ R}
    {sk : Env P σ → R → R} {sk' : P × σ → R → R}
    (hk : ∀ e' p' x, Passed c b s sr n e e' p' → sk e' x = sk' (p', e'.rest) x) (fk : R) :
    f.steps s sr e sk fk = f.from (p, e.rest) sk' fk := by
  unfold Between.steps Between.from
  rw [h.here, h.unbound_finish hne]
  exact congrArg₂ (f (some p) none e.rest) (funext fun p' => funext fun rest => funext fun x =>
    hk _ p' x (h.set hne p' rest)) rfl

theorem run_unify {e : Env P σ} {x y : ℕ} (h : e.unify I.unify x y = some e') (sk : Env P σ → R → R) (fk ck : R) :
    (Goal.atom (.unify x y) : Goal (Step τ)).run I.steps e sk fk ck = sk e' fk := by
  change (e.unify I.unify x y).elim fk (sk · fk) = sk e' fk
  rw [h, Option.elim_some]

/-- Where the chain is not closed, the ends are one. -/
theorem Ready.ends {b : Body τ} (hb : transparent b toFill last = !closes toFill last)
    (h : Ready c b toFill last s sr n e p) : closes toFill last = true ∧ s ≠ sr ∨ closes toFill last = false ∧ s = sr := by
  have hsame := h.same
  rw [hb] at hsame
  cases hcl : closes toFill last with
  | true => exact .inl ⟨rfl, fun heq => by simp [hcl, heq] at hsame⟩
  | false => exact .inr ⟨rfl, hsame.mp (by simp [hcl])⟩

theorem follows_cut : Follows I c .cut := by
  intro toFill last s sr n e p h sk sk' hk fk ck
  rcases h.ends rfl with ⟨hcl, hne⟩ | ⟨hcl, heq⟩
  · rw [thread, if_pos hcl]
    exact (run_unify (h.unify hne I.unify e.rest).1 sk ck ck).trans (hk _ p ck (h.set hne p e.rest))
  · rw [thread, hcl, if_neg Bool.false_ne_true]
    exact hk _ p ck (h.stay heq e.rest)

theorem follows_nil : Follows I c .nil := by
  intro toFill last s sr n e p h sk sk' hk fk ck
  rcases h.ends rfl with ⟨hcl, hne⟩ | ⟨hcl, heq⟩
  · rw [thread, if_pos hcl]
    exact (run_unify (h.unify hne I.unify e.rest).1 sk fk ck).trans (hk _ p fk (h.set hne p e.rest))
  · rw [thread, hcl, if_neg Bool.false_ne_true]
    exact hk _ p fk (h.stay heq e.rest)

theorem follows_braces (g : Goal τ) : Follows I c (.braces g) := by
  intro toFill last s sr n e p h sk sk' hk fk ck
  have hmeaning : (Body.braces g).meaning.run I.items (p, e.rest) sk' fk ck =
      g.run I.goals e.rest (fun rest x => sk' (p, rest) x) fk ck := (part_items I).run_map g ..
  rw [hmeaning]
  rcases h.ends rfl with ⟨hcl, hne⟩ | ⟨hcl, heq⟩
  · rw [thread, if_pos hcl, Goal.run_conj]
    dsimp only
    rw [(part_steps I).run_map]
    refine congrArg (g.run I.goals e.rest · fk ck) (funext fun rest => funext fun x => ?_)
    exact (run_unify (h.unify hne I.unify rest).1 sk x ck).trans (hk _ p x (h.set hne p rest))
  · rw [thread, hcl, if_neg Bool.false_ne_true, (part_steps I).run_map]
    exact congrArg (g.run I.goals e.rest · fk ck) (funext fun rest => funext fun x => hk _ p x (h.stay heq rest))

/-- A body that is one call. -/
theorem follows_call (f : Between P σ R) (item : Item τ) (step : ℕ → ℕ → Step τ)
    (hthread : ∀ toFill last s sr n, thread b toFill last s sr n = .atom (step s sr))
    (hmeaning : b.meaning = .atom item) (hopen : ∀ toFill last, transparent b toFill last = false)
    (hstep : ∀ s sr, I.steps.exec (step s sr) = f.steps s sr) (hitem : I.items.exec item = f.from) : Follows I c b := by
  intro toFill last s sr n e p h sk sk' hk fk ck
  have hne : s ≠ sr := fun heq => by
    have ht := h.same.mpr heq
    rw [hopen] at ht
    cases ht
  rw [hthread, hmeaning]
  change I.steps.exec (step s sr) e sk fk = I.items.exec item (p, e.rest) sk' fk
  rw [hstep, hitem]
  exact h.steps hne hk fk

theorem follows_terminal (x : τ) : Follows I c (.cons x .nil) :=
  follows_call (I.terminal x) (.terminal x) (fun s sr => .terminal s x sr) (fun _ _ _ _ _ => rfl) rfl (fun _ _ => rfl)
    (fun _ _ => rfl) rfl

theorem Follows.conj (ht : Follows I c t) (hr : Follows I c r) : Follows I c (.conj t r) := by
  intro toFill last s sr n e p h sk sk' hk fk ck
  exact ht h.first (fun e' p' x hp => hr (h.second hp) (fun e'' p'' y hp' => hk e'' p'' y (hp.trans h hp')) x ck) fk ck

/-- The parts of a conditional, where only the first answer of the condition counts. -/
theorem Follows.arrow_parts (ht : Follows I c t) (hr : Follows I c r) (h : Ready c (.conj t r) toFill last s sr n e p)
    {sk : Env P σ → R → R} {sk' : P × σ → R → R}
    (hk : ∀ e' p' x, Passed c (.conj t r) s sr n e e' p' → sk e' x = sk' (p', e'.rest) x) (fk ck y : R) :
    (thread t toFill false s (between t r toFill last s sr n) (n + 1)).run I.steps e
      (fun e' _ => (thread r (fillAfter t toFill false) last (between t r toFill last s sr n) sr
        (n + 1 + positions t)).run I.steps e' sk fk ck) y y =
    t.meaning.run I.items (p, e.rest) (fun q _ => r.meaning.run I.items q sk' fk ck) y y :=
  ht h.first (fun _ _ _ hp => hr (h.second hp) (fun e'' p'' z hp' => hk e'' p'' z (hp.trans h hp')) fk ck) y y

theorem Follows.arrow (ht : Follows I c t) (hr : Follows I c r) : Follows I c (.arrow t r) := by
  intro toFill last s sr n e p h sk sk' hk fk ck
  exact ht.arrow_parts hr h.arrow (fun e' p' x hp => hk e' p' x ⟨hp.aliases, hp.there, hp.frame⟩) fk ck fk

theorem Follows.cons (hr : Follows I c r) (x : τ) : Follows I c (.cons x r) := by
  by_cases hnil : r = .nil
  · exact hnil ▸ follows_terminal x
  intro toFill last s sr n e p h sk sk' hk fk ck
  obtain ⟨-, -, hpos, hthread, -⟩ := cons_eq_conj (x := x) hnil toFill last s sr n
  have hmeaning : (Body.cons x r).meaning = (Body.conj (.cons x .nil) r).meaning := by
    cases r with
    | nil => exact absurd rfl hnil
    | _ => rfl
  rw [hthread, hmeaning]
  refine (follows_terminal x).conj hr ⟨coloured_cons hnil h.coloured, h.start, h.finish, h.start_lt, h.finish_lt, ?_,
    h.inj, h.here, hpos ▸ h.unbound⟩ (fun e' p' y hp => hk e' p' y ⟨hp.aliases, hp.there, hpos ▸ hp.frame⟩) fk ck
  exact h.same

theorem Follows.neg (ht : Follows I c t) : Follows I c (.neg t) := by
  intro toFill last s sr n e p h sk sk' hk fk ck
  have hne : s ≠ sr := fun heq => Bool.false_ne_true (h.same.mpr heq)
  have helse : (Goal.atom (.unify s sr) : Goal (Step τ)).run I.steps e sk fk ck = sk' (p, e.rest) fk :=
    (run_unify (h.unify hne I.unify e.rest).2 sk fk ck).trans (hk _ p fk (h.set hne p e.rest))
  change (Goal.disj (.arrow _ .fail) (.atom (.unify s sr))).run I.steps e sk fk ck = _
  rw [Goal.run_ite]
  dsimp only
  rw [helse]
  exact ht h.neg (fun _ _ _ _ => rfl) _ _

/-- A body that a disjunction takes for a condition and a branch. -/
def Body.isArrow : Body τ → Bool
  | .arrow _ _ => true
  | _ => false

theorem isArrow_meaning (b : Body τ) : b.meaning.isArrow = b.isArrow := by
  cases b with
  | cons x r => cases r <;> rfl
  | _ => rfl

theorem isArrow_thread (b : Body τ) (s sr n : ℕ) : (thread b none true s sr n).isArrow = b.isArrow := by
  cases b with
  | cons x r => cases r <;> rfl
  | _ => rfl

theorem Follows.disj (ht : Follows I c t) (hr : Follows I c r) (harrow : t.isArrow = false) :
    Follows I c (.disj t r) := by
  intro toFill last s sr n e p h sk sk' hk fk ck
  have helse := hr h.right (fun e' p' x hp => hk e' p' x hp.right) fk ck
  change (Goal.disj _ _).run I.steps e sk fk ck = (Goal.disj _ _).run I.items (p, e.rest) sk' fk ck
  rw [Goal.run_disj (by rw [isArrow_thread, harrow]), Goal.run_disj (by rw [isArrow_meaning, harrow])]
  dsimp only
  rw [helse]
  exact ht h.left (fun e' p' x hp => hk e' p' x hp.left) _ ck

/-- A disjunction of a condition with its branch and another branch. -/
theorem Follows.ite {t' : Body τ} (ht : Follows I c t) (ht' : Follows I c t') (hr : Follows I c r) :
    Follows I c (.disj (.arrow t t') r) := by
  intro toFill last s sr n e p h sk sk' hk fk ck
  have helse := hr h.right (fun e' p' x hp => hk e' p' x hp.right) fk ck
  change (Goal.disj (.arrow _ _) _).run I.steps e sk fk ck = (Goal.disj (.arrow _ _) _).run I.items (p, e.rest) sk' fk ck
  rw [Goal.run_ite, Goal.run_ite]
  dsimp only
  rw [helse]
  refine ht.arrow_parts ht' h.left.arrow (fun e' p' x hp => hk e' p' x ?_) fk ck _
  exact Passed.left ⟨hp.aliases, hp.there, hp.frame⟩

theorem follows (b : Body τ) : Follows I c b := by
  have hboth : Follows I c b ∧ ∀ t r, b = .arrow t r → Follows I c t ∧ Follows I c r := by
    induction b with
    | var x =>
      refine ⟨follows_call (I.phrase x) (.phrase x) (fun s sr => .phrase x s sr) (fun _ _ _ _ _ => rfl) rfl
        (fun _ _ => rfl) (fun _ _ => rfl) rfl, ?_⟩
      rintro _ _ ⟨⟩
    | cut => exact ⟨follows_cut, by rintro _ _ ⟨⟩⟩
    | nil => exact ⟨follows_nil, by rintro _ _ ⟨⟩⟩
    | cons x r ih => exact ⟨ih.1.cons x, by rintro _ _ ⟨⟩⟩
    | braces g => exact ⟨follows_braces g, by rintro _ _ ⟨⟩⟩
    | conj t r iht ihr => exact ⟨iht.1.conj ihr.1, by rintro _ _ ⟨⟩⟩
    | arrow t r iht ihr =>
      refine ⟨iht.1.arrow ihr.1, fun t' r' heq => ?_⟩
      cases heq
      exact ⟨iht.1, ihr.1⟩
    | neg t ih => exact ⟨ih.1.neg, by rintro _ _ ⟨⟩⟩
    | disj t r iht ihr =>
      refine ⟨?_, by rintro _ _ ⟨⟩⟩
      cases harrow : t.isArrow with
      | false => exact iht.1.disj ihr.1 harrow
      | true =>
        cases t with
        | arrow t t' => exact (iht.2 t t' rfl).1.ite (iht.2 t t' rfl).2 ihr.1
        | _ => cases harrow
    | nonterminal t =>
      refine ⟨follows_call (I.nonterminal t) (.nonterminal t) (fun s sr => .nonterminal t s sr) (fun _ _ _ _ _ => rfl) rfl
        (fun _ _ => rfl) (fun _ _ => rfl) rfl, ?_⟩
      rintro _ _ ⟨⟩
  exact hboth.1

-- ---------------------------------------------------------------------------
-- Unified positions
-- ---------------------------------------------------------------------------

/-- States in which positions are the same that are so by the translation. -/
def SameEnv (a : Aliases ℕ) (e e' : Env P σ) : Prop := e = e' ∧ ∀ x y, a x = a y → e.aliases x = e.aliases y

theorem SameEnv.get {a : Aliases ℕ} (h : SameEnv a e e) {x y : ℕ} (hxy : a x = a y) : e.get x = e.get y :=
  congrArg e.value (h.2 x y hxy)

theorem SameEnv.steps {a : Aliases ℕ} (h : SameEnv a e e) {s s' sr sr' : ℕ} (hs : a s = a s') (hsr : a sr = a sr')
    (f : Between P σ R) {sk sk' : Env P σ → R → R} (hk : Goal.Agree (SameEnv a) sk sk') (fk : R) :
    f.steps s sr e sk fk = f.steps s' sr' e sk' fk := by
  unfold Between.steps
  rw [h.get hs, h.get hsr]
  refine congrArg₂ (f (e.get s') (e.get sr') e.rest) (funext fun p => funext fun rest => funext fun x => ?_) rfl
  have hset : e.set sr p = e.set sr' p := by
    unfold Env.set
    rw [h.2 sr sr' hsr]
  rw [hset]
  exact hk _ _ x ⟨rfl, h.2⟩

/-- Positions are unified with the same effect when they are the same. -/
theorem SameEnv.unify_eq {a : Aliases ℕ} (h : SameEnv a e e) {x y x' y' : ℕ} (hx : a x = a x') (hy : a y = a y')
    (unify : P → P → σ → Option σ) : e.unify unify x y = e.unify unify x' y' := by
  unfold Env.unify Env.set Aliases.unify
  rw [h.get hx, h.get hy, h.2 x x' hx, h.2 y y' hy]

theorem SameEnv.unify {a : Aliases ℕ} (h : SameEnv a e e) {x y : ℕ} {unify : P → P → σ → Option σ}
    (he' : e.unify unify x y = some e') : SameEnv a e' e' := by
  refine ⟨rfl, ?_⟩
  unfold Env.unify at he'
  split at he'
  case isTrue => exact Option.some.inj he' ▸ h.2
  case isFalse =>
    split at he'
    case h_1 =>
      intro u v huv
      rw [← Option.some.inj he']
      simp only [Aliases.unify, h.2 u v huv]
    case h_2 => exact Option.some.inj he' ▸ h.2
    case h_3 => exact Option.some.inj he' ▸ h.2
    case h_4 =>
      obtain ⟨rest, -, rfl⟩ := Option.map_eq_some_iff.mp he'
      exact h.2

/-- Goals that are one up to unified positions run alike. -/
theorem simulates_rename (I : Interp τ P σ R) (a : Aliases ℕ) :
    Goal.Simulates I.steps I.steps (fun x y => x.rename a = y.rename a) (SameEnv a) where
  call := by
    rintro x e _ sk sk' fk ⟨rfl, hsame⟩ hk
    exact congrArg₂ (I.goals.call x e.rest) (funext fun rest => funext fun r => hk _ _ r ⟨rfl, hsame⟩) rfl
  exec := by
    rintro x y e _ sk sk' fk hxy ⟨rfl, hsame⟩ hk
    have h : SameEnv a e e := ⟨rfl, hsame⟩
    cases x with
    | call g =>
      cases y <;> cases hxy
      exact congrArg₂ (I.goals.exec g e.rest) (funext fun rest => funext fun r => hk _ _ r ⟨rfl, hsame⟩) rfl
    | phrase x s sr =>
      cases y with
      | phrase x' s' sr' =>
        obtain ⟨rfl, hs, hsr⟩ := Step.phrase.inj hxy
        exact h.steps hs hsr (I.phrase x) hk fk
      | _ => cases hxy
    | terminal s x sr =>
      cases y with
      | terminal s' x' sr' =>
        obtain ⟨hs, rfl, hsr⟩ := Step.terminal.inj hxy
        exact h.steps hs hsr (I.terminal x) hk fk
      | _ => cases hxy
    | nonterminal t s sr =>
      cases y with
      | nonterminal t' s' sr' =>
        obtain ⟨rfl, hs, hsr⟩ := Step.nonterminal.inj hxy
        exact h.steps hs hsr (I.nonterminal t) hk fk
      | _ => cases hxy
    | unify u v =>
      cases y with
      | unify u' v' =>
        obtain ⟨hu, hv⟩ := Step.unify.inj hxy
        change (e.unify I.unify u v).elim fk (sk · fk) = (e.unify I.unify u' v').elim fk (sk' · fk)
        rw [← h.unify_eq hu hv]
        cases he' : e.unify I.unify u v with
        | none => rfl
        | some e' => exact hk e' e' fk (h.unify he')
      | _ => cases hxy

-- ---------------------------------------------------------------------------
-- Translated bodies
-- ---------------------------------------------------------------------------

/-- The positions of a whole body, with those of the head fixed. -/
def headColour (b : Body τ) (v : ℕ) : ℕ := if v < 2 then v else colour b none true 0 1 2 v

/-- The aliases that the translation of a whole body makes. -/
def bodyAliases (b : Body τ) : Aliases ℕ := Aliases.unifyAll (pairs b none true 0 1 2) id

theorem bodyAliases_binds (b : Body τ) : (bodyAliases b).Binds fun u v => (u, v) ∈ pairs b none true 0 1 2 :=
  (Aliases.binds_id.unifyAll _).congr fun _ _ => iff_of_eq (false_or _)

theorem coloured_head (b : Body τ) : Coloured (headColour b) b none true 0 1 2 :=
  fun _ hv _ => if_neg (Nat.not_lt.mpr hv)

/-- No two positions of the thread are unified. -/
theorem bodyAliases_inj (b : Body τ) {x y : ℕ} (hx : headColour b x = x) (hy : headColour b y = y)
    (h : bodyAliases b x = bodyAliases b y) : x = y := by
  have hrespects : Respects (headColour b) (pairs b none true 0 1 2) :=
    colouringRespects b (coloured_head b) rfl rfl fun ht => by
      rw [not_transparent (by decide)] at ht
      cases ht
  have hcolour := (bodyAliases_binds b).colour (φ := headColour b) (fun u v huv => hrespects (u, v) huv) h
  rwa [hx, hy] at hcolour

/-- The translation of a body, run from a bound position to an unbound one, has the answers that the body means. -/
theorem run_raw (b : Body τ) (I : Interp τ P σ R) {value : ℕ → Option P} {p : P}
    (hstart : value (bodyAliases b 0) = some p) (hfree : ∀ x, x ≠ bodyAliases b 0 → value x = none) (rest : σ)
    (sk : Option P → σ → R → R) (fk ck : R) :
    (raw b none true 0 1 2).run I.steps ⟨bodyAliases b, value, rest⟩ (fun e r => sk (e.get 1) e.rest r) fk ck =
      b.meaning.run I.items (p, rest) (fun q r => sk (some q.1) q.2 r) fk ck := by
  have hrespects : Respects (bodyAliases b) (pairs b none true 0 1 2) := fun e he => (bodyAliases_binds b).rel he
  have hrel := Goal.rel_of_map_eq (threaded b hrespects rfl rfl)
  have hk : Goal.Agree (SameEnv (bodyAliases b)) (fun (e : Env P σ) r => sk (e.get 1) e.rest r)
      fun e r => sk (e.get 1) e.rest r := fun _ _ _ h => h.1 ▸ rfl
  have hready : Ready (headColour b) b none true 0 1 2 ⟨bodyAliases b, value, rest⟩ p :=
    { coloured := coloured_head b
      start := rfl
      finish := rfl
      start_lt := by decide
      finish_lt := by decide
      same := iff_of_false (by simp [not_transparent]) (by decide)
      inj := fun x y hx hy h => bodyAliases_inj b hx hy h
      here := hstart
      unbound := fun v hv _ hne => hfree _ fun h => hne (bodyAliases_inj b hv rfl h) }
  rw [(simulates_rename I (bodyAliases b)).run hrel ⟨rfl, fun _ _ h => h⟩ hk fk ck]
  refine follows b hready (fun e' p' r hp => ?_) fk ck
  rw [hp.there]

end Grammar

end Yap
