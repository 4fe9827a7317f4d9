-- SUMMARY: The shape of answer tries: every node is once among the children of its parent, in whatever form these are kept, and the leaves are the answers.
import Yap.Tabling.AnswerTrie

/-!
# The shape of answer tries

The children of a node are the nodes of its chain, or of all buckets of its hash. An
insertion adds one of them at most; the tables of a hash keep the others.
-/

namespace Yap.Tabling

-- ---------------------------------------------------------------------------
-- Buckets
-- ---------------------------------------------------------------------------

theorem hashEntry_lt (entry : Word) {n : ℕ} (hpos : 0 < n) (hlt : n < 2 ^ 64) : hashEntry entry n < n := by
  have hmask : (BitVec.ofNat 64 n - 1).toNat = n - 1 := by
    rw [BitVec.toNat_sub_of_le]
    · rw [BitVec.toNat_ofNat, Nat.mod_eq_of_lt hlt]
      rfl
    · rw [BitVec.le_def, BitVec.toNat_ofNat, Nat.mod_eq_of_lt hlt]
      exact hpos
  rw [hashEntry, BitVec.toNat_and, hmask]
  exact Nat.lt_of_le_of_lt Nat.and_le_right (by omega)

theorem flatten_modify_cons {α : Type*} {bs : List (List α)} {i : ℕ} (hi : i < bs.length) (a : α) :
    (bs.modify i (a :: ·)).flatten.Perm (a :: bs.flatten) := by
  induction bs generalizing i with
  | nil => exact absurd hi (Nat.not_lt_zero _)
  | cons b bs ih =>
    cases i with
    | zero => rw [List.modify_zero_cons, List.flatten_cons, List.flatten_cons, List.cons_append]
    | succ i =>
      rw [List.modify_succ_cons, List.flatten_cons, List.flatten_cons]
      exact ((ih (Nat.lt_of_succ_lt_succ hi)).append_left b).trans List.perm_middle

section

variable (entry : ℕ → Word) {n : ℕ}

theorem length_distribute (buckets : List (List ℕ)) (chain : List ℕ) :
    (distribute entry n buckets chain).length = buckets.length := by
  induction chain generalizing buckets with
  | nil => rfl
  | cons a chain ih => exact (ih _).trans (List.length_modify ..)

theorem distribute_perm (hpos : 0 < n) (hlt : n < 2 ^ 64) {buckets : List (List ℕ)} (hlen : buckets.length = n)
    (chain : List ℕ) : (distribute entry n buckets chain).flatten.Perm (chain ++ buckets.flatten) := by
  induction chain generalizing buckets with
  | nil => exact List.Perm.refl _
  | cons a chain ih =>
    have hi : hashEntry (entry a) n < buckets.length := hlen.symm ▸ hashEntry_lt (entry a) hpos hlt
    exact (ih ((List.length_modify ..).trans hlen)).trans
      (((flatten_modify_cons hi a).append_left chain).trans List.perm_middle)

theorem flatten_replicate_nil (n : ℕ) : (List.replicate n ([] : List ℕ)).flatten = [] := by
  rw [List.flatten_eq_nil_iff]
  exact fun b hb => List.eq_of_mem_replicate hb

theorem foldl_distribute_perm (hpos : 0 < n) (hlt : n < 2 ^ 64) {buckets : List (List ℕ)} (hlen : buckets.length = n)
    (old : List (List ℕ)) :
    (old.foldl (distribute entry n) buckets).length = n ∧
      (old.foldl (distribute entry n) buckets).flatten.Perm (old.flatten ++ buckets.flatten) := by
  induction old generalizing buckets with
  | nil => exact ⟨hlen, List.Perm.refl _⟩
  | cons b old ih =>
    obtain ⟨hlen', hperm⟩ := ih ((length_distribute entry buckets b).trans hlen)
    refine ⟨hlen', hperm.trans ?_⟩
    rw [List.flatten_cons, List.append_assoc]
    refine ((distribute_perm entry hpos hlt hlen b).append_left old.flatten).trans ?_
    rw [← List.append_assoc, ← List.append_assoc]
    exact List.perm_append_comm.append_right _

theorem length_expandBuckets {buckets : List (List ℕ)} (hpos : 0 < buckets.length) (hlt : 2 * buckets.length < 2 ^ 31) :
    (expandBuckets entry buckets).length = 2 * buckets.length :=
  (foldl_distribute_perm entry (by omega) (by omega) (List.length_replicate ..) _).1

/-- An expanded hash has the same nodes. -/
theorem expandBuckets_perm {buckets : List (List ℕ)} (hpos : 0 < buckets.length) (hlt : 2 * buckets.length < 2 ^ 31) :
    (expandBuckets entry buckets).flatten.Perm buckets.flatten := by
  have hperm := (foldl_distribute_perm entry (n := 2 * buckets.length) (by omega) (by omega)
    (@List.length_replicate _ (2 * buckets.length) []) buckets.reverse).2
  rw [flatten_replicate_nil, List.append_nil] at hperm
  exact hperm.trans (List.reverse_perm buckets).flatten

end

-- ---------------------------------------------------------------------------
-- Children and branches
-- ---------------------------------------------------------------------------

namespace SgFrame

variable (sgFr : SgFrame)

/-- The children of a node, as `TrNode_child` and `TrNode_next` lead to them. -/
def kids (p : ℕ) : List ℕ :=
  match (sgFr.node p).child with
  | .chain nodes => nodes
  | .hash h => (sgFr.hash h).buckets.flatten
  | _ => []

/-- The entries on the way from the root to a node. -/
inductive Branch : ℕ → List Word → Prop
  | root : Branch 0 []
  | kid {p a es} : Branch p es → a ∈ sgFr.kids p → Branch a (es ++ [(sgFr.node a).entry])

/-- The branches from the root to the leaves. -/
def branches : Set (List Word) := {es | ∃ a, sgFr.Branch a es ∧ (sgFr.node a).leaf = true}

/-- The hashes are the ones of the chain, each is below one node. -/
structure Hashed : Prop where
  nodup : sgFr.hashChain.Nodup
  lt : ∀ h ∈ sgFr.hashChain, h < sgFr.hashes
  chained : ∀ h ∈ sgFr.hashChain, ∃ p, (sgFr.node p).child = .hash h
  mem : ∀ p h, (sgFr.node p).child = .hash h → h ∈ sgFr.hashChain
  buckets : ∀ h ∈ sgFr.hashChain, 0 < (sgFr.hash h).buckets.length ∧ (sgFr.hash h).buckets.length < 2 ^ 31
  flatten : ∀ h ∈ sgFr.hashChain, (sgFr.hash h).buckets.flatten ≠ []

/-- Parents are older than their children, and leaves have none. -/
structure Shape : Prop where
  pos : 0 < sgFr.nodes
  lt : ∀ p, ∀ a ∈ sgFr.kids p, p < a
  lt_nodes : ∀ p, ∀ a ∈ sgFr.kids p, a < sgFr.nodes
  parent : ∀ p, ∀ a ∈ sgFr.kids p, (sgFr.node a).parent = p
  nodup : ∀ p, (sgFr.kids p).Nodup
  chain : ∀ p, (sgFr.node p).child ≠ .chain []
  answer : ∀ p b, (sgFr.node p).child = .answer b → (sgFr.node p).leaf = true
  leaf : ∀ p, (sgFr.node p).leaf = true → sgFr.kids p = []
  last : ∀ a, sgFr.lastAnswer = some a → a < sgFr.nodes ∧ (sgFr.node a).leaf = true
  hashed : sgFr.Hashed

variable {sgFr}

theorem kids_null {p : ℕ} (hc : (sgFr.node p).child = .null) : sgFr.kids p = [] := by
  rw [kids, hc]

theorem kids_chain {p : ℕ} {nodes : List ℕ} (hc : (sgFr.node p).child = .chain nodes) : sgFr.kids p = nodes := by
  rw [kids, hc]

theorem kids_hash {p h : ℕ} (hc : (sgFr.node p).child = .hash h) :
    sgFr.kids p = (sgFr.hash h).buckets.flatten := by
  rw [kids, hc]

theorem kids_answer {p a : ℕ} (hc : (sgFr.node p).child = .answer a) : sgFr.kids p = [] := by
  rw [kids, hc]

theorem Branch.lt_nodes (hshape : sgFr.Shape) {a : ℕ} {es : List Word} (h : sgFr.Branch a es) : a < sgFr.nodes := by
  cases h with
  | root => exact hshape.pos
  | kid _ hmem => exact hshape.lt_nodes _ _ hmem

/-- A node has one branch. -/
theorem Branch.unique (hshape : sgFr.Shape) {a : ℕ} {es es' : List Word} (h : sgFr.Branch a es)
    (h' : sgFr.Branch a es') : es = es' := by
  induction h generalizing es' with
  | root =>
    cases h' with
    | root => rfl
    | kid _ hmem => exact absurd (hshape.lt _ _ hmem) (Nat.not_lt_zero _)
  | @kid p a es hp hmem ih =>
    cases h' with
    | root => exact absurd (hshape.lt _ _ hmem) (Nat.not_lt_zero _)
    | @kid q _ es' hq hmem' =>
      have hpq : q = p := (hshape.parent _ _ hmem').symm.trans (hshape.parent _ _ hmem)
      rw [ih (hpq ▸ hq)]

/-- Nothing is below a root without children. -/
theorem Branch.eq_root {a : ℕ} {es : List Word} (h : sgFr.Branch a es) (hkids : sgFr.kids 0 = []) : a = 0 := by
  induction h with
  | root => rfl
  | @kid p a es _ hmem ih =>
    rw [ih, hkids] at hmem
    exact absurd hmem List.not_mem_nil

/-- Branches stay when nodes keep their entries and their children. -/
theorem Branch.mono {sgFr' : SgFrame} (hkids : ∀ p, ∀ a ∈ sgFr.kids p, a ∈ sgFr'.kids p)
    (hentry : ∀ p, ∀ a ∈ sgFr.kids p, (sgFr'.node a).entry = (sgFr.node a).entry) {a : ℕ} {es : List Word}
    (h : sgFr.Branch a es) : sgFr'.Branch a es := by
  induction h with
  | root => exact .root
  | @kid p a es _ hmem ih => exact hentry p a hmem ▸ .kid ih (hkids p a hmem)

/-- What a pair of nodes with one hash below them would have in common is a child. -/
theorem Shape.hash_inj (hshape : sgFr.Shape) {p q h : ℕ} (hp : (sgFr.node p).child = .hash h)
    (hq : (sgFr.node q).child = .hash h) : p = q := by
  obtain ⟨a, ha⟩ := List.exists_mem_of_ne_nil _ (hshape.hashed.flatten h (hshape.hashed.mem p h hp))
  have hap : a ∈ sgFr.kids p := kids_hash hp ▸ ha
  have haq : a ∈ sgFr.kids q := kids_hash hq ▸ ha
  exact (hshape.parent _ _ hap).symm.trans (hshape.parent _ _ haq)

end SgFrame

-- ---------------------------------------------------------------------------
-- A new node
-- ---------------------------------------------------------------------------

/-- `sgFr'` is `sgFr` with one more child below a node. -/
structure Added (sgFr sgFr' : SgFrame) (p : ℕ) (t : Word) (instr : ℕ) : Prop where
  nodes : sgFr'.nodes = sgFr.nodes + 1
  new : sgFr'.node sgFr.nodes = ⟨instr, t, p, false, .null⟩
  above : sgFr'.node p = { sgFr.node p with child := (sgFr'.node p).child }
  other : ∀ a, a ≠ sgFr.nodes → a ≠ p → sgFr'.node a = sgFr.node a
  kids : (sgFr'.kids p).Perm (sgFr.nodes :: sgFr.kids p)
  kids_other : ∀ a, a ≠ sgFr.nodes → a ≠ p → sgFr'.kids a = sgFr.kids a
  chain : (sgFr'.node p).child ≠ .chain []
  answer : ∀ b, (sgFr'.node p).child ≠ .answer b
  last : sgFr'.lastAnswer = sgFr.lastAnswer
  first : sgFr'.firstAnswer = sgFr.firstAnswer
  hashed : sgFr'.Hashed

namespace Added

variable {sgFr sgFr' : SgFrame} {p : ℕ} {t : Word} {instr : ℕ}

theorem kids_new (h : Added sgFr sgFr' p t instr) : sgFr'.kids sgFr.nodes = [] := by
  rw [SgFrame.kids, h.new]

theorem leaf_eq (h : Added sgFr sgFr' p t instr) {a : ℕ} (ha : a ≠ sgFr.nodes) :
    (sgFr'.node a).leaf = (sgFr.node a).leaf := by
  by_cases hp : a = p
  · rw [hp, h.above]
  · rw [h.other a ha hp]

theorem entry_eq (h : Added sgFr sgFr' p t instr) {a : ℕ} (ha : a ≠ sgFr.nodes) :
    (sgFr'.node a).entry = (sgFr.node a).entry := by
  by_cases hp : a = p
  · rw [hp, h.above]
  · rw [h.other a ha hp]

theorem instr_eq (h : Added sgFr sgFr' p t instr) {a : ℕ} (ha : a ≠ sgFr.nodes) :
    (sgFr'.node a).instr = (sgFr.node a).instr := by
  by_cases hp : a = p
  · rw [hp, h.above]
  · rw [h.other a ha hp]

theorem parent_eq (h : Added sgFr sgFr' p t instr) {a : ℕ} (ha : a ≠ sgFr.nodes) :
    (sgFr'.node a).parent = (sgFr.node a).parent := by
  by_cases hp : a = p
  · rw [hp, h.above]
  · rw [h.other a ha hp]

/-- The children are the ones there were, and the new node. -/
theorem mem_kids (h : Added sgFr sgFr' p t instr) {q a : ℕ} (hmem : a ∈ sgFr'.kids q) :
    (q = p ∧ a = sgFr.nodes) ∨ (q ≠ sgFr.nodes ∧ a ∈ sgFr.kids q) := by
  by_cases hq : q = sgFr.nodes
  · rw [hq, h.kids_new] at hmem
    exact absurd hmem List.not_mem_nil
  · by_cases hp : q = p
    · rw [hp] at hmem
      rcases List.mem_cons.mp (h.kids.mem_iff.mp hmem) with ha | ha
      · exact .inl ⟨hp, ha⟩
      · exact .inr ⟨hq, hp ▸ ha⟩
    · rw [h.kids_other q hq hp] at hmem
      exact .inr ⟨hq, hmem⟩

theorem kids_subset (h : Added sgFr sgFr' p t instr) {q a : ℕ} (hq : q ≠ sgFr.nodes) (hmem : a ∈ sgFr.kids q) :
    a ∈ sgFr'.kids q := by
  by_cases hp : q = p
  · rw [hp] at hmem ⊢
    exact h.kids.mem_iff.mpr (List.mem_cons_of_mem _ hmem)
  · rwa [h.kids_other q hq hp]

variable (hshape : sgFr.Shape) (hp : p < sgFr.nodes) (hleaf : (sgFr.node p).leaf = false)

include hshape in
theorem lt_of_mem {q a : ℕ} (hmem : a ∈ sgFr.kids q) : q < sgFr.nodes :=
  Nat.lt_trans (hshape.lt q a hmem) (hshape.lt_nodes q a hmem)

include hshape hp hleaf

/-- The new trie has the shape of a trie. -/
theorem shape (h : Added sgFr sgFr' p t instr) : sgFr'.Shape where
  pos := h.nodes ▸ Nat.succ_pos _
  lt q a hmem := by
    rcases h.mem_kids hmem with ⟨rfl, rfl⟩ | ⟨_, hmem⟩
    · exact hp
    · exact hshape.lt q a hmem
  lt_nodes q a hmem := by
    rw [h.nodes]
    rcases h.mem_kids hmem with ⟨_, rfl⟩ | ⟨_, hmem⟩
    · exact Nat.lt_succ_self _
    · exact Nat.lt_succ_of_lt (hshape.lt_nodes q a hmem)
  parent q a hmem := by
    rcases h.mem_kids hmem with ⟨rfl, rfl⟩ | ⟨_, hmem⟩
    · rw [h.new]
    · rw [h.parent_eq (hshape.lt_nodes q a hmem).ne]
      exact hshape.parent q a hmem
  nodup q := by
    by_cases hq : q = sgFr.nodes
    · rw [hq, h.kids_new]
      exact List.nodup_nil
    · by_cases hqp : q = p
      · rw [hqp, h.kids.nodup_iff]
        exact List.nodup_cons.mpr ⟨fun hmem => (hshape.lt_nodes p _ hmem).ne rfl, hshape.nodup p⟩
      · rw [h.kids_other q hq hqp]
        exact hshape.nodup q
  chain q := by
    by_cases hq : q = sgFr.nodes
    · rw [hq, h.new]
      exact Child.noConfusion
    · by_cases hqp : q = p
      · exact hqp ▸ h.chain
      · rw [h.other q hq hqp]
        exact hshape.chain q
  answer q b hc := by
    by_cases hq : q = sgFr.nodes
    · rw [hq, h.new] at hc
      exact Child.noConfusion hc
    · by_cases hqp : q = p
      · exact absurd (hqp ▸ hc) (h.answer b)
      · rw [h.other q hq hqp] at hc ⊢
        exact hshape.answer q b hc
  leaf q hq := by
    by_cases hqn : q = sgFr.nodes
    · rw [hqn, h.kids_new]
    · rw [h.leaf_eq hqn] at hq
      by_cases hqp : q = p
      · rw [hqp, hleaf] at hq
        exact Bool.noConfusion hq
      · rw [h.kids_other q hqn hqp]
        exact hshape.leaf q hq
  last a ha := by
    rw [h.last] at ha
    obtain ⟨hlt, hl⟩ := hshape.last a ha
    exact ⟨h.nodes ▸ Nat.lt_succ_of_lt hlt, (h.leaf_eq hlt.ne).trans hl⟩
  hashed := h.hashed

end Added

end Yap.Tabling
