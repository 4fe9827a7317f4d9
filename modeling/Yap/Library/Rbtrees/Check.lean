-- SUMMARY: What the check is_rbtree/1 of library(rbtrees) accepts: its comparisons with the nearest keys above a node, and when they make the tree ordered.
import Yap.Library.Rbtrees.Tree

/-!
# The check of red-black trees

`check_val` compares the key of a node with the nearest keys on the path to the
root that bound it from both sides. The whole tree is bounded by `-inf` and
`+inf`, and the check passes over a bound that is one of the two. The terms are
numbers, so a key may be one of them, and what it bounds is not checked.
-/

namespace Yap

namespace Rbtrees

variable {α β : Type*}

-- ---------------------------------------------------------------------------
-- The nearest keys
-- ---------------------------------------------------------------------------

/-- Each key of the tree with its nearest key from below; `min` is the one of the root. -/
def lowers : Tree α β → Option α → List (α × α)
  | .nil, _ => []
  | .red l k _ r, min | .black l k _ r, min =>
    lowers l min ++ (min.toList.map fun a => (a, k)) ++ lowers r (some k)

/-- Each key of the tree with its nearest key from above. -/
def uppers : Tree α β → Option α → List (α × α)
  | .nil, _ => []
  | .red l k _ r, max | .black l k _ r, max =>
    uppers l (some k) ++ (max.toList.map fun a => (k, a)) ++ uppers r max

/-- What one of the two lists says of a node and its subtrees. -/
theorem forall_bounds {l r : List (α × α)} {o : Option α} {f : α → α × α} {p : α × α → Prop} :
    (∀ e ∈ l ++ o.toList.map f ++ r, p e) ↔
      (∀ e ∈ l, p e) ∧ (∀ a, o = some a → p (f a)) ∧ ∀ e ∈ r, p e := by
  simp only [List.mem_append, or_imp, forall_and, and_assoc, List.forall_mem_map, Option.mem_toList]

theorem mem_lowers {t : Tree α β} {min : Option α} {e : α × α} (h : e ∈ lowers t min) :
    min = some e.1 ∨ e.1 ∈ t.toList.map Prod.fst := by
  induction t generalizing min with
  | nil => exact absurd h List.not_mem_nil
  | red l k v r ihl ihr | black l k v r ihl ihr =>
    simp only [lowers, List.mem_append, List.mem_map, Option.mem_toList] at h
    simp only [toList_red, toList_black, List.map_append, List.map_cons, List.mem_append, List.mem_cons]
    rcases h with (hl | ⟨a, ha, rfl⟩) | hr
    · exact (ihl hl).imp_right .inl
    · exact .inl ha
    · cases ihr hr with
      | inl heq => exact .inr (.inr (.inl (Option.some.inj heq).symm))
      | inr hmem => exact .inr (.inr (.inr hmem))

theorem mem_uppers {t : Tree α β} {max : Option α} {e : α × α} (h : e ∈ uppers t max) :
    max = some e.2 ∨ e.2 ∈ t.toList.map Prod.fst := by
  induction t generalizing max with
  | nil => exact absurd h List.not_mem_nil
  | red l k v r ihl ihr | black l k v r ihl ihr =>
    simp only [uppers, List.mem_append, List.mem_map, Option.mem_toList] at h
    simp only [toList_red, toList_black, List.map_append, List.map_cons, List.mem_append, List.mem_cons]
    rcases h with (hl | ⟨a, ha, rfl⟩) | hr
    · cases ihl hl with
      | inl heq => exact .inr (.inr (.inl (Option.some.inj heq).symm))
      | inr hmem => exact .inr (.inl hmem)
    · exact .inl ha
    · exact (ihr hr).imp_right fun hmem => .inr (.inr hmem)

section Order

variable [LinearOrder α]

/-- The keys of the list are between the bounds. -/
def Between (min max : Option α) (l : List (α × β)) : Prop :=
  (∀ a, min = some a → ∀ e ∈ l, a < e.1) ∧ ∀ a, max = some a → ∀ e ∈ l, e.1 < a

theorem between_none (l : List (α × β)) : Between none none l :=
  ⟨fun _ h => absurd h (Option.some_ne_none _).symm, fun _ h => absurd h (Option.some_ne_none _).symm⟩

/-- The tree below a node is ordered when the node is between its bounds and its subtrees are
ordered between the bounds and its key. -/
theorem sorted_between_node {l r : List (α × β)} {k : α} {v : β} {min max : Option α} :
    Assoc.Sorted (l ++ (k, v) :: r) ∧ Between min max (l ++ (k, v) :: r) ↔
      (Assoc.Sorted l ∧ Between min (some k) l) ∧ (Assoc.Sorted r ∧ Between (some k) max r) ∧
        (∀ a, min = some a → a < k) ∧ ∀ a, max = some a → k < a := by
  rw [Assoc.sorted_split]
  constructor
  · rintro ⟨⟨hl, hr, hle, hge⟩, hmin, hmax⟩
    refine ⟨⟨hl, fun a ha e he => hmin a ha e (List.mem_append_left _ he), ?_⟩, ⟨hr, ?_, ?_⟩, ?_, ?_⟩
    · rintro a ha e he
      exact Option.some.inj ha ▸ hle e he
    · rintro a ha e he
      exact Option.some.inj ha ▸ hge e he
    · exact fun a ha e he => hmax a ha e (List.mem_append_right _ (List.mem_cons_of_mem _ he))
    · exact fun a ha => hmin a ha (k, v) (by simp)
    · exact fun a ha => hmax a ha (k, v) (by simp)
  · rintro ⟨⟨hl, hminl, hlk⟩, ⟨hr, hkr, hmaxr⟩, hmin, hmax⟩
    have hle := hlk k rfl
    have hge := hkr k rfl
    refine ⟨⟨hl, hr, hle, hge⟩, fun a ha e he => ?_, fun a ha e he => ?_⟩
    · cases List.mem_append.mp he with
      | inl hel => exact hminl a ha e hel
      | inr her =>
        cases List.mem_cons.mp her with
        | inl heq => exact heq ▸ hmin a ha
        | inr her => exact (hmin a ha).trans (hge e her)
    · cases List.mem_append.mp he with
      | inl hel => exact (hle e hel).trans (hmax a ha)
      | inr her =>
        cases List.mem_cons.mp her with
        | inl heq => exact heq ▸ hmax a ha
        | inr her => exact hmaxr a ha e her

/-- A tree is ordered when each key is in order with its nearest keys. -/
theorem sorted_iff_nearest (t : Tree α β) (min max : Option α) :
    Assoc.Sorted t.toList ∧ Between min max t.toList ↔
      (∀ e ∈ lowers t min, e.1 < e.2) ∧ ∀ e ∈ uppers t max, e.1 < e.2 := by
  induction t generalizing min max with
  | nil => simp [lowers, uppers, Assoc.sorted_nil, Between]
  | red l k v r ihl ihr | black l k v r ihl ihr =>
    simp only [toList_red, toList_black, sorted_between_node, ihl, ihr, lowers, uppers, forall_bounds]
    tauto

theorem sorted_iff (t : Tree α β) :
    Assoc.Sorted t.toList ↔ (∀ e ∈ lowers t none, e.1 < e.2) ∧ ∀ e ∈ uppers t none, e.1 < e.2 := by
  rw [← sorted_iff_nearest, and_iff_left (between_none _)]

end Order

-- ---------------------------------------------------------------------------
-- What the check accepts
-- ---------------------------------------------------------------------------

theorem checkRedChild_iff {t : Tree α β} {c : Color} {n : ℕ} (h : Balanced t c n) :
    checkRedChild t = true ↔ c = .black := by
  cases h <;> simp [checkRedChild]

/-- The balance of a tree against the count of black nodes that the check is given. -/
def HasHeight (t : Tree α β) (bls : ℤ) : Prop := ∃ c, ∃ n : ℕ, bls = n ∧ Balanced t c n

theorem hasHeight_nil {bls : ℤ} : HasHeight (.nil : Tree α β) bls ↔ bls = 0 := by
  constructor
  · rintro ⟨c, n, rfl, h⟩
    cases h
    rfl
  · rintro rfl
    exact ⟨.black, 0, rfl, .nil⟩

theorem hasHeight_red {l r : Tree α β} {k : α} {v : β} {bls : ℤ} :
    HasHeight (.red l k v r) bls ↔
      checkRedChild l = true ∧ checkRedChild r = true ∧ HasHeight l bls ∧ HasHeight r bls := by
  constructor
  · rintro ⟨c, n, hn, h⟩
    cases h with
    | red hl hr => exact ⟨checkRedChild_black hl, checkRedChild_black hr, ⟨_, n, hn, hl⟩, _, n, hn, hr⟩
  · rintro ⟨hcl, hcr, ⟨cl, n, hn, hl⟩, cr, m, hm, hr⟩
    obtain rfl : m = n := by omega
    obtain rfl := (checkRedChild_iff hl).mp hcl
    obtain rfl := (checkRedChild_iff hr).mp hcr
    exact ⟨.red, m, hm, .red hl hr⟩

theorem hasHeight_black {l r : Tree α β} {k : α} {v : β} {bls : ℤ} :
    HasHeight (.black l k v r) bls ↔ HasHeight l (bls - 1) ∧ HasHeight r (bls - 1) := by
  constructor
  · rintro ⟨c, n, hn, h⟩
    cases h with
    | black hl hr => exact ⟨⟨_, _, by omega, hl⟩, _, _, by omega, hr⟩
  · rintro ⟨⟨cl, n, hn, hl⟩, cr, m, hm, hr⟩
    obtain rfl : m = n := by omega
    exact ⟨.black, m + 1, by omega, .black hl hr⟩

/-- The count that the check takes from the leftmost path is the one of every path, when there is
such a one. -/
theorem hasHeight_leftmost {l r : Tree α β} {k : α} {v : β} :
    HasHeight l (findPathBlacks l 0) ∧ HasHeight r (findPathBlacks l 0) ↔
      ∃ n, Balanced (.black l k v r) .black n := by
  constructor
  · rintro ⟨⟨cl, n, hn, hl⟩, cr, m, hm, hr⟩
    obtain rfl : m = n := by omega
    exact ⟨m + 1, .black hl hr⟩
  · rintro ⟨n, h⟩
    cases h with
    | @black _ _ _ _ n cl cr hl hr =>
      rw [findPathBlacks_eq hl 0, zero_add]
      exact ⟨⟨cl, n, rfl, hl⟩, cr, n, rfl, hr⟩

section Check

variable [LinearOrder α] (inf : Infs α)

/-- The comparison with a nearest key, where the bounds of the whole tree stand for none. -/
theorem checkVal_iff {k : α} {min max : Option α} :
    checkVal inf k (min.getD inf.minus) (max.getD inf.plus) = true ↔
      (∀ a, min = some a → a < k ∨ a = inf.minus) ∧ ∀ a, max = some a → k < a ∨ a = inf.plus := by
  cases min <;> cases max <;> simp [checkVal]

theorem checkRbtree_iff (t : Tree α β) (min max : Option α) (bls : ℤ) :
    checkRbtree inf t (min.getD inf.minus) (max.getD inf.plus) bls = true ↔
      HasHeight t bls ∧ (∀ e ∈ lowers t min, e.1 < e.2 ∨ e.1 = inf.minus) ∧
        ∀ e ∈ uppers t max, e.1 < e.2 ∨ e.2 = inf.plus := by
  induction t generalizing min max bls with
  | nil => simp [checkRbtree, hasHeight_nil, lowers, uppers]
  | red l k v r ihl ihr =>
    have hleft := ihl min (some k) bls
    have hright := ihr (some k) max bls
    rw [Option.getD_some] at hleft hright
    simp only [checkRbtree, Bool.and_eq_true, checkVal_iff, hleft, hright, hasHeight_red, lowers, uppers,
      forall_bounds]
    tauto
  | black l k v r ihl ihr =>
    have hleft := ihl min (some k) (bls - 1)
    have hright := ihr (some k) max (bls - 1)
    rw [Option.getD_some] at hleft hright
    simp only [checkRbtree, Bool.and_eq_true, checkVal_iff, hleft, hright, hasHeight_black, lowers, uppers,
      forall_bounds]
    tauto

/-- The check accepts a balanced tree when each key is in order with its nearest keys, those that
are `-inf` from below and `+inf` from above apart. -/
theorem isRbtree_iff (t : Tree α β) :
    isRbtree inf t = true ↔ (∃ n, Balanced t .black n) ∧
      (∀ e ∈ lowers t none, e.1 < e.2 ∨ e.1 = inf.minus) ∧
        ∀ e ∈ uppers t none, e.1 < e.2 ∨ e.2 = inf.plus := by
  cases t with
  | nil => simpa [isRbtree, lowers, uppers] using ⟨0, Balanced.nil⟩
  | red l k v r =>
    have hnot : ¬∃ n, Balanced (.red l k v r) .black n := by
      rintro ⟨n, h⟩
      cases h
    simp [isRbtree, hnot]
  | black l k v r =>
    have hleft := checkRbtree_iff inf l none (some k) (findPathBlacks l 0)
    have hright := checkRbtree_iff inf r (some k) none (findPathBlacks l 0)
    rw [Option.getD_some, Option.getD_none] at hleft hright
    rw [isRbtree, Bool.and_eq_true, hleft, hright, ← hasHeight_leftmost]
    simp only [lowers, uppers, forall_bounds]
    simp
    tauto

/-- What the check does not see is in order: if the rest of what makes a tree valid holds, every key
whose nearest key from below is `-inf` is above it, and every key whose nearest key from above is
`+inf` is below that. -/
def InfsInOrder (t : Tree α β) : Prop :=
  (∃ n, Balanced t .black n) → (∀ e ∈ lowers t none, e.1 ≠ inf.minus → e.1 < e.2) →
    (∀ e ∈ uppers t none, e.2 ≠ inf.plus → e.1 < e.2) →
      (∀ e ∈ lowers t none, e.1 = inf.minus → e.1 < e.2) ∧ ∀ e ∈ uppers t none, e.2 = inf.plus → e.1 < e.2

/-- The trees whose keys are neither `-inf` nor `+inf`. -/
theorem infsInOrder_of_not_mem {t : Tree α β} (hminus : inf.minus ∉ t.toList.map Prod.fst)
    (hplus : inf.plus ∉ t.toList.map Prod.fst) : InfsInOrder inf t := by
  intro _ _ _
  refine ⟨fun e he heq => ?_, fun e he heq => ?_⟩
  · exact absurd ((mem_lowers he).resolve_left (Option.some_ne_none _).symm) (heq ▸ hminus)
  · exact absurd ((mem_uppers he).resolve_left (Option.some_ne_none _).symm) (heq ▸ hplus)

/-- The check is right exactly about the trees where what it passes over is in order. -/
theorem isRbtree_iff_valid_iff (t : Tree α β) :
    (isRbtree inf t = true ↔ Valid t) ↔ InfsInOrder inf t := by
  have hvalid : Valid t ↔ Assoc.Sorted t.toList ∧ ∃ n, Balanced t .black n :=
    ⟨fun h => ⟨h.sorted, h.balanced⟩, fun h => ⟨h.1, h.2⟩⟩
  rw [isRbtree_iff, hvalid, sorted_iff]
  constructor
  · intro heq hb hlow hup
    obtain ⟨⟨hl, hu⟩, -⟩ := heq.mp ⟨hb, fun e he => or_iff_not_imp_right.mpr (hlow e he),
      fun e he => or_iff_not_imp_right.mpr (hup e he)⟩
    exact ⟨fun e he _ => hl e he, fun e he _ => hu e he⟩
  · intro hin
    constructor
    · rintro ⟨hb, hlow, hup⟩
      obtain ⟨hl, hu⟩ := hin hb (fun e he hne => (hlow e he).resolve_right hne)
        fun e he hne => (hup e he).resolve_right hne
      exact ⟨⟨fun e he => (hlow e he).elim id (hl e he), fun e he => (hup e he).elim id (hu e he)⟩, hb⟩
    · rintro ⟨⟨hl, hu⟩, hb⟩
      exact ⟨hb, fun e he => .inl (hl e he), fun e he => .inl (hu e he)⟩

end Check

/-- Two nodes with the key `-inf`. -/
def infTwice : Tree (WithBot (WithTop ℤ)) Char := .black .nil ⊥ 'a' (.red .nil ⊥ 'b' .nil)

theorem isRbtree_infTwice : ¬(isRbtree ⟨⊥, ⊤⟩ infTwice = true ↔ Valid infTwice) := by
  intro h
  have hvalid : Valid infTwice := h.mp (by decide)
  exact absurd hvalid.sorted (by decide)

end Rbtrees

end Yap
