-- SUMMARY: The compilation of a completed trie: the hashes become chains of siblings, and every node gets the instruction for its place among its siblings.
import Mathlib.Logic.Relation
import Yap.Tabling.Grammar

/-!
# Compiled tries

Freeing the hashes changes the form in which children are kept and nothing else. The
recursion over the nodes then changes instructions only, each of them once: what it has
done is stated by the set of the nodes that it has visited.
-/

namespace Yap.Tabling

-- ---------------------------------------------------------------------------
-- Freeing the hashes
-- ---------------------------------------------------------------------------

namespace SgFrame

variable (sgFr : SgFrame)

/-- The child of a node, when the buckets of a hash are linked. -/
def linked (a : ℕ) : Child :=
  match (sgFr.node a).child with
  | .hash h => .chain (sgFr.hash h).buckets.flatten
  | c => c

/-- The trie without hashes. -/
def freed : SgFrame := { sgFr with node := fun a => { sgFr.node a with child := sgFr.linked a } }

variable {sgFr}

theorem linked_hash {a h : ℕ} (hc : (sgFr.node a).child = .hash h) :
    sgFr.linked a = .chain (sgFr.hash h).buckets.flatten := by
  rw [linked, hc]

theorem linked_of_ne {a : ℕ} (hc : ∀ h, (sgFr.node a).child ≠ .hash h) : sgFr.linked a = (sgFr.node a).child := by
  cases hchild : (sgFr.node a).child with
  | hash h => exact absurd hchild (hc h)
  | null => rw [linked, hchild]
  | chain nodes => rw [linked, hchild]
  | answer b => rw [linked, hchild]

theorem linked_ne_hash (a h : ℕ) : sgFr.linked a ≠ .hash h := by
  cases hchild : (sgFr.node a).child with
  | hash h => rw [linked_hash hchild]; exact Child.noConfusion
  | null => rw [linked, hchild]; exact Child.noConfusion
  | chain nodes => rw [linked, hchild]; exact Child.noConfusion
  | answer b => rw [linked, hchild]; exact Child.noConfusion

theorem kids_freed (p : ℕ) : sgFr.freed.kids p = sgFr.kids p := by
  cases hc : (sgFr.node p).child with
  | hash h => rw [kids_hash hc]; exact kids_chain (linked_hash hc)
  | null =>
    rw [kids_null hc]
    exact kids_null ((linked_of_ne fun h => by rw [hc]; exact Child.noConfusion).trans hc)
  | chain nodes =>
    rw [kids_chain hc]
    exact kids_chain ((linked_of_ne fun h => by rw [hc]; exact Child.noConfusion).trans hc)
  | answer b =>
    rw [kids_answer hc]
    exact kids_answer ((linked_of_ne fun h => by rw [hc]; exact Child.noConfusion).trans hc)

end SgFrame

/-- The hashes of the chain are all the hashes below nodes, each of them once. -/
theorem freeAnswerHashChain_eq {sgFr : SgFrame} {hashes : List ℕ} (hnodup : hashes.Nodup)
    (hparent : ∀ p, ∀ a ∈ sgFr.kids p, (sgFr.node a).parent = p)
    (hchained : ∀ h ∈ hashes, ∃ p, (sgFr.node p).child = .hash h)
    (hmem : ∀ p h, (sgFr.node p).child = .hash h → h ∈ hashes)
    (hflatten : ∀ h ∈ hashes, (sgFr.hash h).buckets.flatten ≠ []) :
    freeAnswerHashChain sgFr hashes = some sgFr.freed := by
  induction hashes generalizing sgFr with
  | nil =>
    have hlinked : ∀ a, sgFr.linked a = (sgFr.node a).child := fun a =>
      SgFrame.linked_of_ne fun h hc => absurd (hmem a h hc) List.not_mem_nil
    rw [freeAnswerHashChain, SgFrame.freed]
    simp only [hlinked]
  | cons h hashes ih =>
    obtain ⟨p, hp⟩ := hchained h (List.mem_cons_self ..)
    obtain ⟨hh, hnodup⟩ := List.nodup_cons.mp hnodup
    have hkids := SgFrame.kids_hash hp
    cases hbuckets : (sgFr.hash h).buckets.flatten with
    | nil => exact absurd hbuckets (hflatten h (List.mem_cons_self ..))
    | cons first rest =>
      have hfirst : (sgFr.node first).parent = p := hparent p first (by rw [hkids, hbuckets]; exact List.mem_cons_self ..)
      have hnode := fun a => setChild_node sgFr p a (.chain (first :: rest))
      set sgFr₁ := sgFr.setChild p (.chain (first :: rest)) with hsgFr₁
      have hold : ∀ q i, (sgFr₁.node q).child = .hash i → q ≠ p ∧ (sgFr.node q).child = .hash i := fun q i hq => by
        rw [hnode] at hq
        by_cases hqp : q = p
        · rw [if_pos hqp] at hq
          exact Child.noConfusion hq
        · rw [if_neg hqp] at hq
          exact ⟨hqp, hq⟩
      have hkids₁ : ∀ q, sgFr₁.kids q = sgFr.kids q := fun q => by
        by_cases hqp : q = p
        · rw [hqp, hkids, hbuckets]
          exact SgFrame.kids_chain (by rw [hnode, if_pos rfl])
        · exact SgFrame.kids_congr (by rw [hnode, if_neg hqp]) fun i _ => rfl
      have hrec : freeAnswerHashChain sgFr₁ hashes = some sgFr₁.freed := by
        refine ih hnodup (fun q a ha => ?_) (fun i hi => ?_) (fun q i hq => ?_) fun i hi => ?_
        · rw [hnode]
          exact hparent q a (hkids₁ q ▸ ha)
        · obtain ⟨q, hq⟩ := hchained i (List.mem_cons_of_mem _ hi)
          have hqp : q ≠ p := by
            rintro rfl
            rw [hp] at hq
            exact hh (Child.hash.inj hq ▸ hi)
          exact ⟨q, by rw [hnode, if_neg hqp, hq]⟩
        · obtain ⟨hqp, hq⟩ := hold q i hq
          rcases List.mem_cons.mp (hmem q i hq) with rfl | hi
          · have hmemq : first ∈ sgFr.kids q := by
              rw [SgFrame.kids_hash hq, hbuckets]
              exact List.mem_cons_self ..
            exact absurd ((hparent q first hmemq).symm.trans hfirst) hqp
          · exact hi
        · exact hflatten i (List.mem_cons_of_mem _ hi)
      have hfreed : sgFr₁.freed = sgFr.freed := by
        rw [SgFrame.freed, SgFrame.freed]
        have hfun : (fun a => { sgFr₁.node a with child := sgFr₁.linked a }) =
            fun a => { sgFr.node a with child := sgFr.linked a } := by
          funext a
          by_cases hap : a = p
          · rw [hap, SgFrame.linked_hash hp, hbuckets]
            rw [SgFrame.linked_of_ne fun i hc => (hold p i hc).1 rfl, hnode, if_pos rfl]
          · have hchild : (sgFr₁.node a).child = (sgFr.node a).child := by rw [hnode, if_neg hap]
            have hlinked : sgFr₁.linked a = sgFr.linked a := by
              rw [SgFrame.linked, SgFrame.linked, hchild]
              rfl
            rw [hlinked, hnode]
        rw [hfun]
        rfl
      rw [freeAnswerHashChain, hbuckets]
      simp only
      rw [hfirst, ← hsgFr₁, hrec, hfreed]

-- ---------------------------------------------------------------------------
-- Places among siblings
-- ---------------------------------------------------------------------------

/-- The instruction of a node by its place in a chain of siblings. -/
def siblingKind (nodes : List ℕ) (a : ℕ) : Kind :=
  if nodes = [a] then .do_
  else if nodes.head? = some a then .try_
  else if nodes.getLast? = some a then .trust
  else .retry

/-- The number that is taken from that of the `retry` instruction. -/
def siblingPosition (nodes : List ℕ) (a : ℕ) : ℕ := Kind.retry.ctorIdx - (siblingKind nodes a).ctorIdx

theorem opNumber_sub (trieDoVar : ℕ) (fam : Family) (nodes : List ℕ) (a : ℕ) :
    opNumber trieDoVar fam .retry - siblingPosition nodes a = opNumber trieDoVar fam (siblingKind nodes a) := by
  have hle : (siblingKind nodes a).ctorIdx ≤ Kind.retry.ctorIdx := by
    cases siblingKind nodes a <;> decide
  rw [opNumber, opNumber, siblingPosition]
  omega

theorem siblingPosition_first {c : ℕ} {nexts : List ℕ} :
    siblingPosition (c :: nexts) c =
      if nexts = [] then traversePositionFirst + traversePositionLast else traversePositionFirst := by
  by_cases hn : nexts = []
  · rw [if_pos hn, siblingPosition, siblingKind, if_pos (by rw [hn])]
    rfl
  · rw [if_neg hn, siblingPosition, siblingKind, if_neg fun h => hn (List.cons.inj h).2, if_pos (List.head?_cons ..)]
    rfl

theorem siblingPosition_last {pre : List ℕ} {c : ℕ} (hnodup : (pre ++ [c]).Nodup) (hpre : pre ≠ []) :
    siblingPosition (pre ++ [c]) c = traversePositionLast := by
  cases pre with
  | nil => exact absurd rfl hpre
  | cons b pre =>
    have hbc : b ≠ c := fun he =>
      (List.nodup_cons.mp hnodup).1 (he.symm ▸ List.mem_append_right pre (List.mem_singleton_self c))
    rw [siblingPosition, siblingKind, if_neg, if_neg, if_pos List.getLast?_concat]
    · rfl
    · exact fun h => hbc (Option.some.inj h)
    · exact fun h => hbc (List.cons.inj h).1

theorem siblingPosition_next {pre post : List ℕ} {c d : ℕ} (hnodup : (pre ++ c :: d :: post).Nodup) (hpre : pre ≠ []) :
    siblingPosition (pre ++ c :: d :: post) c = traversePositionNext := by
  cases pre with
  | nil => exact absurd rfl hpre
  | cons b pre =>
    have hbc : b ≠ c := fun he => (List.nodup_cons.mp hnodup).1 (he.symm ▸ List.mem_append_right pre (List.mem_cons_self ..))
    rw [siblingPosition, siblingKind, if_neg, if_neg, if_neg]
    · rfl
    · intro h
      rw [List.getLast?_append, List.getLast?_cons_cons, List.getLast?_eq_some_getLast (List.cons_ne_nil d post)] at h
      have hc : c ∈ d :: post := Option.some.inj h ▸ List.getLast_mem (List.cons_ne_nil d post)
      exact (List.nodup_cons.mp (List.nodup_append.mp hnodup).2.1).1 hc
    · exact fun h => hbc (Option.some.inj h)
    · exact fun h => hbc (List.cons.inj h).1

-- ---------------------------------------------------------------------------
-- Visited nodes
-- ---------------------------------------------------------------------------

/-- A trie without hashes. -/
structure Linked (sgFr : SgFrame) : Prop where
  lt : ∀ p, ∀ a ∈ sgFr.kids p, p < a
  lt_nodes : ∀ p, ∀ a ∈ sgFr.kids p, a < sgFr.nodes
  parent : ∀ p, ∀ a ∈ sgFr.kids p, (sgFr.node a).parent = p
  nodup : ∀ p, (sgFr.kids p).Nodup
  chain : ∀ p, sgFr.kids p ≠ [] → (sgFr.node p).child = .chain (sgFr.kids p)
  leaf : ∀ p, (sgFr.node p).leaf = true → sgFr.kids p = []
  full : ∀ p, ∀ a ∈ sgFr.kids p, (sgFr.node a).leaf = true ∨ sgFr.kids a ≠ []

section

variable (sgFr : SgFrame)

/-- The nodes of the subtree of a node. -/
def Below : ℕ → ℕ → Prop := Relation.ReflTransGen fun p a => a ∈ sgFr.kids p

/-- The nodes of the subtrees of some nodes. -/
def Under (nodes : List ℕ) : Set ℕ := {a | ∃ k ∈ nodes, Below sgFr k a}

/-- The code of a compiled node. -/
def compiledInstr (yapOpcode : ℕ → ℕ) (a : ℕ) : ℕ :=
  yapOpcode ((sgFr.node a).instr - siblingPosition (sgFr.kids (sgFr.node a).parent) a)

/-- `sgFr'` is the trie with the nodes of `P` compiled. -/
structure Coded (yapOpcode : ℕ → ℕ) (P : Set ℕ) (sgFr' : SgFrame) : Prop where
  rest : sgFr' = { sgFr with node := sgFr'.node }
  visited : ∀ a ∈ P, sgFr'.node a = { sgFr.node a with instr := compiledInstr sgFr yapOpcode a }
  other : ∀ a, a ∉ P → sgFr'.node a = sgFr.node a

variable {sgFr}

theorem below_iff {c a : ℕ} : Below sgFr c a ↔ a = c ∨ a ∈ Under sgFr (sgFr.kids c) := by
  rw [Below, Relation.ReflTransGen.cases_head_iff]
  refine or_congr eq_comm ⟨?_, ?_⟩
  · rintro ⟨k, hk, hka⟩
    exact ⟨k, hk, hka⟩
  · rintro ⟨k, hk, hka⟩
    exact ⟨k, hk, hka⟩

theorem under_cons (c : ℕ) (nodes : List ℕ) : Under sgFr (c :: nodes) = {a | Below sgFr c a} ∪ Under sgFr nodes := by
  refine Set.ext fun a => ⟨?_, ?_⟩
  · rintro ⟨k, hk, hka⟩
    rcases List.mem_cons.mp hk with rfl | hk
    · exact .inl hka
    · exact .inr ⟨k, hk, hka⟩
  · rintro (hca | ⟨k, hk, hka⟩)
    · exact ⟨c, List.mem_cons_self .., hca⟩
    · exact ⟨k, List.mem_cons_of_mem _ hk, hka⟩

theorem under_nil : Under sgFr [] = ∅ :=
  Set.eq_empty_of_forall_notMem fun a ha => by
    obtain ⟨k, hk, _⟩ := ha
    exact absurd hk List.not_mem_nil

variable (hlinked : Linked sgFr)

include hlinked

theorem Below.le {c a : ℕ} (h : Below sgFr c a) : c ≤ a := by
  induction h with
  | refl => exact le_rfl
  | tail _ hmem ih => exact ih.trans (hlinked.lt _ _ hmem).le

/-- The subtrees of siblings have no common nodes. -/
theorem Below.sibling_eq {q k k' a : ℕ} (hk : k ∈ sgFr.kids q) (hk' : k' ∈ sgFr.kids q) (h : Below sgFr k a)
    (h' : Below sgFr k' a) : k = k' := by
  have hchain : ∀ {k k'}, k ∈ sgFr.kids q → k' ∈ sgFr.kids q → Below sgFr k k' → k = k' := by
    intro k k' hk hk' hbelow
    rcases Relation.ReflTransGen.cases_tail hbelow with he | ⟨p, hkp, hpk'⟩
    · exact he.symm
    · have hpq : p = q := (hlinked.parent p k' hpk').symm.trans (hlinked.parent q k' hk')
      have hle : k ≤ p := Below.le hlinked hkp
      exact absurd (hlinked.lt q k hk) (hpq ▸ hle).not_gt
  have hright : Relator.RightUnique (Function.swap fun p a => a ∈ sgFr.kids p) := fun a p p' hp hp' =>
    (hlinked.parent p a hp).symm.trans (hlinked.parent p' a hp')
  rcases Relation.ReflTransGen.total_of_right_unique hright (Relation.reflTransGen_swap.mpr h)
    (Relation.reflTransGen_swap.mpr h') with hkk' | hk'k
  · exact (hchain hk' hk (Relation.reflTransGen_swap.mp hkk')).symm
  · exact hchain hk hk' (Relation.reflTransGen_swap.mp hk'k)

theorem not_mem_under_kids (c : ℕ) : c ∉ Under sgFr (sgFr.kids c) := by
  rintro ⟨k, hk, hkc⟩
  exact absurd (hlinked.lt c k hk) (Below.le hlinked hkc).not_gt

end

-- ---------------------------------------------------------------------------
-- The recursion
-- ---------------------------------------------------------------------------

theorem setInstr_node_self (sgFr : SgFrame) (c instr : ℕ) :
    (sgFr.setInstr c instr).node c = { sgFr.node c with instr := instr } :=
  Function.update_self ..

theorem setInstr_node_of_ne (sgFr : SgFrame) {a c : ℕ} (instr : ℕ) (hac : a ≠ c) :
    (sgFr.setInstr c instr).node a = sgFr.node a :=
  Function.update_of_ne hac _ _

namespace Coded

variable {sgFr sgFr' : SgFrame} {yapOpcode : ℕ → ℕ} {P : Set ℕ}

theorem congr {P' : Set ℕ} (h : Coded sgFr yapOpcode P sgFr') (hP : P = P') : Coded sgFr yapOpcode P' sgFr' := hP ▸ h

theorem leaf_eq (h : Coded sgFr yapOpcode P sgFr') (a : ℕ) : (sgFr'.node a).leaf = (sgFr.node a).leaf := by
  by_cases ha : a ∈ P
  · rw [h.visited a ha]
  · rw [h.other a ha]

theorem child_eq (h : Coded sgFr yapOpcode P sgFr') (a : ℕ) : (sgFr'.node a).child = (sgFr.node a).child := by
  by_cases ha : a ∈ P
  · rw [h.visited a ha]
  · rw [h.other a ha]

theorem entry_eq (h : Coded sgFr yapOpcode P sgFr') (a : ℕ) : (sgFr'.node a).entry = (sgFr.node a).entry := by
  by_cases ha : a ∈ P
  · rw [h.visited a ha]
  · rw [h.other a ha]

theorem kids_eq (h : Coded sgFr yapOpcode P sgFr') (p : ℕ) : sgFr'.kids p = sgFr.kids p :=
  SgFrame.kids_congr (h.child_eq p) fun i _ => by rw [h.rest]

/-- One more node gets its code. -/
theorem setInstr (h : Coded sgFr yapOpcode P sgFr') {c position : ℕ} (hc : c ∉ P)
    (hposition : position = siblingPosition (sgFr.kids (sgFr.node c).parent) c) :
    Coded sgFr yapOpcode (insert c P) (sgFr'.setInstr c (yapOpcode ((sgFr'.node c).instr - position))) where
  rest := by
    rw [SgFrame.setInstr]
    conv_lhs => rw [h.rest]
  visited a ha := by
    by_cases hac : a = c
    · rw [hac, setInstr_node_self, h.other c hc, hposition, compiledInstr]
    · rw [setInstr_node_of_ne _ _ hac]
      exact h.visited a (ha.resolve_left hac)
  other a ha := by
    rw [setInstr_node_of_ne _ _ fun hac => ha (.inl hac)]
    exact h.other a fun hP => ha (.inr hP)

end Coded

section

variable {sgFr : SgFrame} {yapOpcode : ℕ → ℕ}

/-- What a call for a chain of siblings does: the subtrees of all of them are visited. -/
def FirstSpec (sgFr : SgFrame) (yapOpcode : ℕ → ℕ) (fuel : ℕ) : Prop :=
  ∀ sgFr' P q, Coded sgFr yapOpcode P sgFr' → sgFr.kids q ≠ [] → Disjoint P (Under sgFr (sgFr.kids q)) →
    2 * (sgFr.nodes - q) ≤ fuel + 1 →
    ∃ sgFr'', updateAnswerTrieBranch yapOpcode fuel sgFr' (sgFr.kids q) traversePositionFirst = some sgFr'' ∧
      Coded sgFr yapOpcode (P ∪ Under sgFr (sgFr.kids q)) sgFr''

/-- What a call for a later sibling does: its subtree is visited. -/
def NextSpec (sgFr : SgFrame) (yapOpcode : ℕ → ℕ) (fuel : ℕ) : Prop :=
  ∀ sgFr' P q c nexts position, Coded sgFr yapOpcode P sgFr' → c ∈ sgFr.kids q → position ≠ traversePositionFirst →
    position = siblingPosition (sgFr.kids q) c → Disjoint P {a | Below sgFr c a} → 2 * (sgFr.nodes - c) ≤ fuel →
    ∃ sgFr'', updateAnswerTrieBranch yapOpcode fuel sgFr' (c :: nexts) position = some sgFr'' ∧
      Coded sgFr yapOpcode (P ∪ {a | Below sgFr c a}) sgFr''

variable (hlinked : Linked sgFr) {fuel : ℕ}

include hlinked

theorem updateBelow_coded (hfirst : FirstSpec sgFr yapOpcode fuel) {sgFr' : SgFrame} {P : Set ℕ} {q c : ℕ}
    (hcoded : Coded sgFr yapOpcode P sgFr') (hc : c ∈ sgFr.kids q) (hP : Disjoint P (Under sgFr (sgFr.kids c)))
    (hfuel : 2 * (sgFr.nodes - c) ≤ fuel + 1) :
    ∃ sgFr'', updateBelow (updateAnswerTrieBranch yapOpcode fuel) sgFr' c = some sgFr'' ∧
      Coded sgFr yapOpcode (P ∪ Under sgFr (sgFr.kids c)) sgFr'' := by
  rcases Bool.eq_false_or_eq_true (sgFr.node c).leaf with hleaf | hleaf
  · refine ⟨sgFr', ?_, hcoded.congr ?_⟩
    · rw [updateBelow, if_pos ((hcoded.leaf_eq c).trans hleaf)]
    · rw [hlinked.leaf c hleaf, under_nil, Set.union_empty]
  · have hkids : sgFr.kids c ≠ [] := (hlinked.full q c hc).resolve_left (by rw [hleaf]; exact Bool.false_ne_true)
    rw [updateBelow, if_neg (by rw [hcoded.leaf_eq, hleaf]; exact Bool.false_ne_true), hcoded.child_eq,
      hlinked.chain c hkids]
    exact hfirst sgFr' P c hcoded hkids hP hfuel

theorem updateNexts_coded (hnext : NextSpec sgFr yapOpcode fuel) {sgFr' : SgFrame} {P : Set ℕ} {q : ℕ}
    {pre nexts : List ℕ} (hcoded : Coded sgFr yapOpcode P sgFr') (hkids : sgFr.kids q = pre ++ nexts) (hpre : pre ≠ [])
    (hP : Disjoint P (Under sgFr nexts)) (hfuel : 2 * (sgFr.nodes - q) ≤ fuel + 2) :
    ∃ sgFr'', updateNexts (updateAnswerTrieBranch yapOpcode fuel) sgFr' nexts = some sgFr'' ∧
      Coded sgFr yapOpcode (P ∪ Under sgFr nexts) sgFr'' := by
  have hnodup : (pre ++ nexts).Nodup := hkids ▸ hlinked.nodup q
  have hfuel' : ∀ c ∈ sgFr.kids q, 2 * (sgFr.nodes - c) ≤ fuel := fun c hc => by
    have hlt := hlinked.lt q c hc
    have hlt' := hlinked.lt_nodes q c hc
    omega
  induction nexts generalizing sgFr' P pre with
  | nil => exact ⟨sgFr', rfl, hcoded.congr (by rw [under_nil, Set.union_empty])⟩
  | cons c nexts ih =>
    have hc : c ∈ sgFr.kids q := hkids ▸ List.mem_append_right pre (List.mem_cons_self ..)
    rw [under_cons, Set.disjoint_union_right] at hP
    cases nexts with
    | nil =>
      rw [under_cons, under_nil, Set.union_empty]
      refine hnext sgFr' P q c [] traversePositionLast hcoded hc (by decide) ?_ hP.1 (hfuel' c hc)
      rw [hkids, siblingPosition_last hnodup hpre]
    | cons d nexts =>
      obtain ⟨sgFr₁, h₁, hcoded₁⟩ := hnext sgFr' P q c (d :: nexts) traversePositionNext hcoded hc (by decide)
        (by rw [hkids, siblingPosition_next hnodup hpre]) hP.1 (hfuel' c hc)
      have hdisj : Disjoint {a | Below sgFr c a} (Under sgFr (d :: nexts)) := by
        refine Set.disjoint_left.mpr fun a hca => ?_
        rintro ⟨k, hk, hka⟩
        have hkq : k ∈ sgFr.kids q := hkids ▸ List.mem_append_right pre (List.mem_cons_of_mem _ hk)
        have hck := Below.sibling_eq hlinked hc hkq hca hka
        exact (List.nodup_cons.mp (List.nodup_append.mp hnodup).2.1).1 (hck ▸ hk)
      have hkids' : sgFr.kids q = (pre ++ [c]) ++ d :: nexts := by rw [hkids, List.append_cons]
      obtain ⟨sgFr₂, h₂, hcoded₂⟩ := ih hcoded₁ hkids' (List.concat_ne_nil _ _)
        (Set.disjoint_union_left.mpr ⟨hP.2, hdisj⟩) (hkids' ▸ hlinked.nodup q)
      refine ⟨sgFr₂, ?_, hcoded₂.congr ?_⟩
      · rw [updateNexts, h₁]
        exact h₂
      · rw [Set.union_assoc, ← under_cons]

theorem nextSpec_succ (hfirst : FirstSpec sgFr yapOpcode fuel) : NextSpec sgFr yapOpcode (fuel + 1) := by
  intro sgFr' P q c nexts position hcoded hc hne hposition hP hfuel
  have hset : {a | Below sgFr c a} = insert c (Under sgFr (sgFr.kids c)) := Set.ext fun a => below_iff
  rw [hset, Set.disjoint_insert_right] at hP
  obtain ⟨sgFr₁, h₁, hcoded₁⟩ := updateBelow_coded hlinked hfirst hcoded hc hP.2 hfuel
  have hc₁ : c ∉ P ∪ Under sgFr (sgFr.kids c) := fun h => h.elim hP.1 (not_mem_under_kids hlinked c)
  rw [← hlinked.parent q c hc] at hposition
  refine ⟨_, ?_, (hcoded₁.setInstr hc₁ hposition).congr ?_⟩
  · rw [updateAnswerTrieBranch, h₁]
    simp only [Option.bind_some, if_neg hne]
  · rw [hset, Set.union_insert]

theorem firstSpec_succ (hfirst : FirstSpec sgFr yapOpcode fuel) (hnext : NextSpec sgFr yapOpcode fuel) :
    FirstSpec sgFr yapOpcode (fuel + 1) := by
  intro sgFr' P q hcoded hne hP hfuel
  cases hkids : sgFr.kids q with
  | nil => exact absurd hkids hne
  | cons c nexts =>
    have hc : c ∈ sgFr.kids q := hkids ▸ List.mem_cons_self ..
    have hlt := hlinked.lt q c hc
    have hset : {a | Below sgFr c a} = insert c (Under sgFr (sgFr.kids c)) := Set.ext fun a => below_iff
    have hdisj : Disjoint {a | Below sgFr c a} (Under sgFr nexts) := by
      refine Set.disjoint_left.mpr fun a hca => ?_
      rintro ⟨k, hk, hka⟩
      have hkq : k ∈ sgFr.kids q := hkids ▸ List.mem_cons_of_mem _ hk
      have hnodup := hlinked.nodup q
      rw [hkids] at hnodup
      exact (List.nodup_cons.mp hnodup).1 (Below.sibling_eq hlinked hc hkq hca hka ▸ hk)
    rw [hkids, under_cons, Set.disjoint_union_right, hset, Set.disjoint_insert_right] at hP
    obtain ⟨⟨hcP, hPbelow⟩, hPnexts⟩ := hP
    rw [hset, Set.disjoint_insert_left] at hdisj
    -- the subtree of the first node, the later siblings, and last the first node itself
    obtain ⟨sgFr₁, h₁, hcoded₁⟩ := updateBelow_coded hlinked hfirst hcoded hc hPbelow (by omega)
    have hkids' : sgFr.kids q = [c] ++ nexts := hkids
    obtain ⟨sgFr₂, h₂, hcoded₂⟩ := updateNexts_coded hlinked hnext hcoded₁ hkids' (List.cons_ne_nil _ _)
      (Set.disjoint_union_left.mpr ⟨hPnexts, hdisj.2⟩) hfuel
    have hc₂ : c ∉ P ∪ Under sgFr (sgFr.kids c) ∪ Under sgFr nexts := by
      rintro ((h | h) | h)
      · exact hcP h
      · exact not_mem_under_kids hlinked c h
      · exact hdisj.1 h
    have hposition : siblingPosition (c :: nexts) c = siblingPosition (sgFr.kids (sgFr.node c).parent) c := by
      rw [hlinked.parent q c hc, hkids]
    refine ⟨_, ?_, (hcoded₂.setInstr hc₂ hposition).congr ?_⟩
    · rw [updateAnswerTrieBranch, h₁]
      simp only [Option.bind_some, if_true, h₂, Option.map_some]
      rw [siblingPosition_first]
    · rw [under_cons, hset, Set.union_assoc, Set.insert_union, Set.union_insert]

/-- With enough fuel the recursion visits the nodes below a node. -/
theorem firstSpec (fuel : ℕ) : FirstSpec sgFr yapOpcode fuel ∧ NextSpec sgFr yapOpcode fuel := by
  induction fuel with
  | zero =>
    refine ⟨fun sgFr' P q _ hne _ hfuel => ?_, fun sgFr' P q c _ _ _ hc _ _ _ hfuel => ?_⟩
    · obtain ⟨a, ha⟩ := List.exists_mem_of_ne_nil _ hne
      have hlt := hlinked.lt q a ha
      have hlt' := hlinked.lt_nodes q a ha
      omega
    · have hlt' := hlinked.lt_nodes q c hc
      omega
  | succ fuel ih => exact ⟨firstSpec_succ hlinked ih.1 ih.2, nextSpec_succ hlinked ih.1⟩

end

-- ---------------------------------------------------------------------------
-- Completed tables
-- ---------------------------------------------------------------------------

/-- The trie that the recursion starts from. -/
def unhashed (sgFr : SgFrame) : SgFrame := { sgFr.freed with hashChain := [], state := sgFr.state + 2 }

section

variable {trieDoVar : ℕ} {sgFr : SgFrame} {A : Set (List Word)}

theorem kids_unhashed (sgFr : SgFrame) (p : ℕ) : (unhashed sgFr).kids p = sgFr.kids p := SgFrame.kids_freed p

theorem Trie.linked (htrie : Trie trieDoVar sgFr 0 A) : Linked (unhashed sgFr) where
  lt p a hmem := htrie.shape.lt p a (kids_unhashed _ p ▸ hmem)
  lt_nodes p a hmem := htrie.shape.lt_nodes p a (kids_unhashed _ p ▸ hmem)
  parent p a hmem := htrie.shape.parent p a (kids_unhashed _ p ▸ hmem)
  nodup p := (kids_unhashed sgFr p).symm ▸ htrie.shape.nodup p
  chain p hne := by
    rw [kids_unhashed] at hne ⊢
    cases hc : (sgFr.node p).child with
    | null => exact absurd (SgFrame.kids_null hc) hne
    | chain nodes =>
      rw [SgFrame.kids_chain hc]
      exact (SgFrame.linked_of_ne fun h => by rw [hc]; exact Child.noConfusion).trans hc
    | hash h => exact (SgFrame.linked_hash hc).trans (by rw [SgFrame.kids_hash hc])
    | answer b => exact absurd (SgFrame.kids_answer hc) hne
  leaf p hleaf := (kids_unhashed _ p).trans (htrie.shape.leaf p hleaf)
  full p a hmem := by
    rw [kids_unhashed] at hmem ⊢
    exact htrie.full p a hmem (Nat.ne_zero_of_lt (htrie.shape.lt p a hmem))

/-- All nodes below the root are visited. -/
theorem updateAnswerTrie_coded (htrie : Trie trieDoVar sgFr 0 A) (yapOpcode : ℕ → ℕ) {fuel : ℕ}
    (hfuel : 2 * sgFr.nodes ≤ fuel) :
    ∃ sgFr', updateAnswerTrie yapOpcode fuel sgFr = some sgFr' ∧
      Coded (unhashed sgFr) yapOpcode (Under (unhashed sgFr) (sgFr.kids 0)) sgFr' := by
  have hlinked := htrie.linked
  have hhashed := htrie.shape.hashed
  have hfreed : freeAnswerHashChain sgFr sgFr.hashChain = some sgFr.freed :=
    freeAnswerHashChain_eq hhashed.nodup htrie.shape.parent hhashed.chained hhashed.mem hhashed.flatten
  have hchain : ∀ {nodes}, sgFr.linked 0 = .chain nodes → sgFr.kids 0 ≠ [] → sgFr.kids 0 = nodes := by
    intro nodes hl hne
    have hc := hlinked.chain 0 ((kids_unhashed _ 0).symm ▸ hne)
    rw [kids_unhashed] at hc
    exact Child.chain.inj (hc.symm.trans hl)
  rw [updateAnswerTrie, hfreed, Option.bind_some]
  dsimp only
  by_cases hne : sgFr.kids 0 = []
  · have hnull : (sgFr.freed.node 0).child = .null := by
      cases hc : (sgFr.node 0).child with
      | null => exact (SgFrame.linked_of_ne fun h => by rw [hc]; exact Child.noConfusion).trans hc
      | chain nodes => exact absurd ((SgFrame.kids_chain hc).symm.trans hne ▸ hc) (htrie.shape.chain 0)
      | hash h => exact absurd ((SgFrame.kids_hash hc).symm.trans hne) (hhashed.flatten h (hhashed.mem 0 h hc))
      | answer b => exact absurd hc (htrie.root b)
    rw [hnull, hne, under_nil]
    exact ⟨unhashed sgFr, rfl, rfl, fun a ha => absurd ha (Set.notMem_empty a), fun a _ => rfl⟩
  · have hne' : (unhashed sgFr).kids 0 ≠ [] := (kids_unhashed _ 0).symm ▸ hne
    have hlinked₀ : (sgFr.freed.node 0).child = .chain (sgFr.kids 0) := (hlinked.chain 0 hne').trans (by rw [kids_unhashed])
    obtain ⟨sgFr', hrun, hcoded⟩ := (firstSpec hlinked fuel).1 (unhashed sgFr) ∅ 0
      ⟨rfl, fun a ha => absurd ha (Set.notMem_empty a), fun a _ => rfl⟩ hne' (Set.empty_disjoint _) (Nat.le_succ_of_le hfuel)
    rw [kids_unhashed] at hrun hcoded
    rw [hlinked₀]
    exact ⟨sgFr', hrun, hcoded.congr (Set.empty_union _)⟩

/-- The nodes on branches are below the root. -/
theorem SgFrame.Branch.under {a : ℕ} {es : List Word} (h : sgFr.Branch a es) :
    a = 0 ∨ a ∈ Under sgFr (sgFr.kids 0) := by
  induction h with
  | root => exact .inl rfl
  | @kid p a es _ hmem ih =>
    rcases ih with rfl | ⟨k, hk, hka⟩
    · exact .inr ⟨a, hmem, .refl⟩
    · exact .inr ⟨k, hk, hka.tail hmem⟩

end

/-- The compiled trie of any sequence of answers has no hashes and the branches of the trie that it was made from, and
    every node has the instruction for its place among its siblings. -/
theorem updateAnswerTrie_compiles (words : TrieWords) (isRef : Addr → Bool) (trieDoVar : ℕ) (yapOpcode : ℕ → ℕ)
    (globalMode : Bool) (rounds subsArity state opqs : ℕ) (answers : List (Fin subsArity → Term)) (sgFr : SgFrame × ℕ)
    (h : insertAnswers words isRef trieDoVar globalMode rounds (SgFrame.new state, opqs) answers = some sgFr)
    (fuel : ℕ) (hfuel : 2 * sgFr.1.nodes ≤ fuel) :
    ∃ sgFr', updateAnswerTrie yapOpcode fuel sgFr.1 = some sgFr' ∧
      (∀ p h, (sgFr'.node p).child ≠ .hash h) ∧
      sgFr'.branches = sgFr.1.branches ∧
      ∀ p es nodes, sgFr'.Branch p es → (sgFr'.node p).child = .chain nodes → ∀ a ∈ nodes, ∃ fam,
        (sgFr.1.node a).instr = opNumber trieDoVar fam .retry ∧
          (sgFr'.node a).instr = yapOpcode (opNumber trieDoVar fam (siblingKind nodes a)) := by
  obtain ⟨A, htrie⟩ := insertAnswers_trie h
  obtain ⟨sgFr', hrun, hcoded⟩ := updateAnswerTrie_coded htrie yapOpcode hfuel
  have hkids : ∀ p, sgFr'.kids p = sgFr.1.kids p := fun p => (hcoded.kids_eq p).trans (kids_unhashed _ p)
  have hbranch : ∀ {a es}, sgFr'.Branch a es ↔ sgFr.1.Branch a es := by
    intro a es
    refine ⟨fun hb => hb.mono ?_ ?_, fun hb => hb.mono ?_ ?_⟩
    · exact fun p a hmem => hkids p ▸ hmem
    · exact fun _ a _ => (hcoded.entry_eq a).symm
    · exact fun p a hmem => (hkids p).symm ▸ hmem
    · exact fun _ a _ => hcoded.entry_eq a
  refine ⟨sgFr', hrun, fun p h hc => ?_, Set.ext fun es => ?_, fun p es nodes hb hc a ha => ?_⟩
  · rw [hcoded.child_eq] at hc
    exact SgFrame.linked_ne_hash p h hc
  · refine exists_congr fun a => and_congr hbranch ?_
    rw [hcoded.leaf_eq]
    rfl
  · have hkidsp : sgFr'.kids p = nodes := SgFrame.kids_chain hc
    have hmem : a ∈ sgFr.1.kids p := by rw [← hkids, hkidsp]; exact ha
    obtain ⟨fam, hinstr⟩ := htrie.retry p a hmem
    refine ⟨fam, hinstr, ?_⟩
    have hunder : a ∈ Under (unhashed sgFr.1) (sgFr.1.kids 0) := by
      have hbu : (unhashed sgFr.1).Branch p es := hb.mono (fun q a ha => hcoded.kids_eq q ▸ ha) fun q a _ => by
        rw [hcoded.entry_eq]
      have hmemu : a ∈ (unhashed sgFr.1).kids p := (kids_unhashed _ p).symm ▸ hmem
      have hpos : a ≠ 0 := Nat.ne_zero_of_lt (htrie.shape.lt p a hmem)
      exact kids_unhashed sgFr.1 0 ▸ (hbu.kid hmemu).under.resolve_left hpos
    rw [hcoded.visited a hunder, ← opNumber_sub, ← hinstr]
    have hparent : ((unhashed sgFr.1).node a).parent = p := htrie.shape.parent p a hmem
    have hnodes : (unhashed sgFr.1).kids p = nodes := (kids_unhashed _ p).trans ((hkids p).symm.trans hkidsp)
    have hcode : compiledInstr (unhashed sgFr.1) yapOpcode a =
        yapOpcode (((unhashed sgFr.1).node a).instr - siblingPosition nodes a) := by
      rw [compiledInstr, hparent, hnodes]
    exact hcode

/-- Words for answers that are small integers. -/
def intWords : TrieWords where
  mkAtomTerm _ := 1
  functor _ := none
  node n := BitVec.ofNat 64 n <<< 3
  heapStore _ := 0
  globalTrie _ vars := (0, vars)
  atom_low _ := by decide
  functor_low f w h := absurd h (Option.some_ne_none w).symm
  functor_inj f g w h := absurd h (Option.some_ne_none w).symm
  functor_special f w h := absurd h (Option.some_ne_none w).symm
  node_low n := makeTableVarTerm_low n
  globalTrie_low _ _ := rfl

/-- Nine answers, one more than a level without a hash has. -/
def nineAnswers : List (Fin 1 → Term) := (List.range 9).map fun n _ => .int (BitVec.ofNat 58 n)

theorem updateAnswerTrie_compiles_nine :
    ∃ sgFr sgFr', insertAnswers intWords (fun _ => false) 100 false 4 (SgFrame.new 0, 0) nineAnswers = some sgFr ∧
      updateAnswerTrie id (2 * sgFr.1.nodes) sgFr.1 = some sgFr' ∧ sgFr'.branches = sgFr.1.branches := by
  have hsome : (insertAnswers intWords (fun _ => false) 100 false 4 (SgFrame.new 0, 0) nineAnswers).isSome = true := by
    decide +kernel
  obtain ⟨sgFr, h⟩ := Option.isSome_iff_exists.mp hsome
  obtain ⟨sgFr', hrun, _, hbranches, _⟩ := updateAnswerTrie_compiles intWords (fun _ => false) 100 id false 4 1 0 0
    nineAnswers sgFr h (2 * sgFr.1.nodes) le_rfl
  exact ⟨sgFr, sgFr', h, hrun, hbranches⟩

end Yap.Tabling
