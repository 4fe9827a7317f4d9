-- SUMMARY: Insertions into answer tries keep the shape, and the entries of an answer become a branch of the trie.
import Yap.Tabling.Shape

/-!
# Insertions

An entry is found among the children of a node, or added to them, as a link of a chain,
in a new hash, or in the bucket of a hash.
-/

namespace Yap.Tabling

-- ---------------------------------------------------------------------------
-- One entry
-- ---------------------------------------------------------------------------

namespace SgFrame

variable {sgFr sgFr' : SgFrame}

theorem kids_congr {q : ℕ} (hchild : (sgFr'.node q).child = (sgFr.node q).child)
    (hhash : ∀ h, (sgFr.node q).child = .hash h → sgFr'.hash h = sgFr.hash h) : sgFr'.kids q = sgFr.kids q := by
  rw [kids, kids, hchild]
  cases hc : (sgFr.node q).child with
  | hash h => exact congrArg (fun hash => hash.buckets.flatten) (hhash h hc)
  | null => rfl
  | chain nodes => rfl
  | answer a => rfl

theorem Hashed.keep (h : sgFr.Hashed) (hhash : sgFr'.hash = sgFr.hash) (hhashes : sgFr'.hashes = sgFr.hashes)
    (hhashChain : sgFr'.hashChain = sgFr.hashChain)
    (hchild : ∀ q i, (sgFr'.node q).child = .hash i ↔ (sgFr.node q).child = .hash i) : sgFr'.Hashed where
  nodup := hhashChain ▸ h.nodup
  lt i hi := hhashes ▸ h.lt i (hhashChain ▸ hi)
  chained i hi := (h.chained i (hhashChain ▸ hi)).imp fun q hq => (hchild q i).mpr hq
  mem q i hq := hhashChain ▸ h.mem q i ((hchild q i).mp hq)
  buckets i hi := hhash ▸ h.buckets i (hhashChain ▸ hi)
  flatten i hi := hhash ▸ h.flatten i (hhashChain ▸ hi)

end SgFrame

section

variable {sgFr : SgFrame} {p : ℕ} {t : Word} {instr : ℕ} (hshape : sgFr.Shape) (hp : p < sgFr.nodes)

include hshape in
/-- There is no hash below a node that does not exist yet. -/
theorem SgFrame.Shape.child_nodes (h : ℕ) : (sgFr.node sgFr.nodes).child ≠ .hash h := by
  intro hc
  obtain ⟨a, ha⟩ := List.exists_mem_of_ne_nil _ (hshape.hashed.flatten h (hshape.hashed.mem _ h hc))
  have hmem : a ∈ sgFr.kids sgFr.nodes := SgFrame.kids_hash hc ▸ ha
  exact absurd (hshape.lt _ a hmem) (hshape.lt_nodes _ a hmem).asymm

/-- The node function after a new node below `p`. -/
theorem node_added (c : Child) :
    ((sgFr.newNode instr t p).setChild p c).node =
      Function.update (Function.update sgFr.node sgFr.nodes ⟨instr, t, p, false, .null⟩) p
        { Function.update sgFr.node sgFr.nodes ⟨instr, t, p, false, .null⟩ p with child := c } := rfl

include hp in
theorem update_new (c : Child) :
    Function.update (Function.update sgFr.node sgFr.nodes ⟨instr, t, p, false, .null⟩) p
      { Function.update sgFr.node sgFr.nodes ⟨instr, t, p, false, .null⟩ p with child := c } sgFr.nodes =
      ⟨instr, t, p, false, .null⟩ := by
  rw [Function.update_of_ne hp.ne', Function.update_self]

include hp in
theorem update_above (c : Child) :
    Function.update (Function.update sgFr.node sgFr.nodes ⟨instr, t, p, false, .null⟩) p
      { Function.update sgFr.node sgFr.nodes ⟨instr, t, p, false, .null⟩ p with child := c } p =
      { sgFr.node p with child := c } := by
  rw [Function.update_self, Function.update_of_ne hp.ne]

theorem update_other (c : Child) {a : ℕ} (hn : a ≠ sgFr.nodes) (ha : a ≠ p) :
    Function.update (Function.update sgFr.node sgFr.nodes ⟨instr, t, p, false, .null⟩) p
      { Function.update sgFr.node sgFr.nodes ⟨instr, t, p, false, .null⟩ p with child := c } a = sgFr.node a := by
  rw [Function.update_of_ne ha, Function.update_of_ne hn]

include hshape hp

/-- A new link of a chain, or the first one. -/
theorem added_chain {nodes : List ℕ} (hkids : sgFr.kids p = nodes) (hhash : ∀ h, (sgFr.node p).child ≠ .hash h) :
    Added sgFr ((sgFr.newNode instr t p).setChild p (.chain (sgFr.nodes :: nodes))) p t instr where
  nodes := rfl
  new := update_new hp _
  above := by rw [node_added, update_above hp]
  other a hn ha := update_other _ hn ha
  kids := by
    rw [SgFrame.kids, node_added, update_above hp, hkids]
  kids_other a hn ha := by
    rw [SgFrame.kids, node_added, update_other _ hn ha]
    rfl
  chain := by
    rw [node_added, update_above hp]
    exact fun hc => List.cons_ne_nil _ _ (Child.chain.inj hc)
  answer b := by
    rw [node_added, update_above hp]
    exact Child.noConfusion
  last := rfl
  first := rfl
  hashed := by
    refine hshape.hashed.keep rfl rfl rfl fun q i => ?_
    rw [node_added]
    by_cases hq : q = p
    · rw [hq, update_above hp]
      exact ⟨Child.noConfusion, fun hc => absurd hc (hhash i)⟩
    · by_cases hqn : q = sgFr.nodes
      · rw [hqn, update_new hp]
        exact ⟨Child.noConfusion, fun hc => absurd hc (hshape.child_nodes i)⟩
      · rw [update_other _ hqn hq]

/-- A chain becomes a hash. -/
theorem added_newHash {nodes : List ℕ} (hc : (sgFr.node p).child = .chain nodes) {buckets : List (List ℕ)} {n : ℕ}
    (hpos : 0 < buckets.length) (hlt : buckets.length < 2 ^ 31)
    (hperm : buckets.flatten.Perm (sgFr.nodes :: nodes)) :
    Added sgFr (((sgFr.newNode instr t p).newHash buckets n).setChild p (.hash sgFr.hashes)) p t instr := by
  set sgFr' := ((sgFr.newNode instr t p).newHash buckets n).setChild p (.hash sgFr.hashes) with hsgFr'
  have habove : sgFr'.node p = { sgFr.node p with child := .hash sgFr.hashes } := update_above hp _
  have hnew : sgFr'.node sgFr.nodes = ⟨instr, t, p, false, .null⟩ := update_new hp _
  have hother : ∀ a, a ≠ sgFr.nodes → a ≠ p → sgFr'.node a = sgFr.node a := fun a hn ha => update_other _ hn ha
  have hhash : sgFr'.hash sgFr.hashes = ⟨buckets, n⟩ := Function.update_self ..
  have hold : ∀ h ∈ sgFr.hashChain, sgFr'.hash h = sgFr.hash h := fun h hh =>
    Function.update_of_ne (hshape.hashed.lt h hh).ne _ _
  have hmem : ∀ h ∈ sgFr'.hashChain, h = sgFr.hashes ∨ h ∈ sgFr.hashChain := fun h hh => List.mem_cons.mp hh
  refine ⟨rfl, hnew, ?_, hother, ?_, fun a hn ha => ?_, ?_, fun b => ?_, rfl, rfl, ?_⟩
  · rw [habove]
  · rw [SgFrame.kids_hash (congrArg AnsNode.child habove), hhash, SgFrame.kids_chain hc]
    exact hperm
  · exact SgFrame.kids_congr (by rw [hother a hn ha]) fun h hh => hold h (hshape.hashed.mem a h hh)
  · rw [habove]
    exact Child.noConfusion
  · rw [habove]
    exact Child.noConfusion
  · refine ⟨?_, fun h hh => ?_, fun h hh => ?_, fun q h hq => ?_, fun h hh => ?_, fun h hh => ?_⟩
    · exact List.nodup_cons.mpr ⟨fun hmem => (hshape.hashed.lt _ hmem).ne rfl, hshape.hashed.nodup⟩
    · rcases hmem h hh with rfl | hh
      · exact Nat.lt_succ_self _
      · exact Nat.lt_succ_of_lt (hshape.hashed.lt h hh)
    · rcases hmem h hh with rfl | hh
      · exact ⟨p, congrArg AnsNode.child habove⟩
      · obtain ⟨q, hq⟩ := hshape.hashed.chained h hh
        have hqn : q ≠ sgFr.nodes := fun he => hshape.child_nodes h (he ▸ hq)
        have hqp : q ≠ p := fun he => Child.noConfusion (hc.symm.trans (he ▸ hq))
        exact ⟨q, by rw [hother q hqn hqp, hq]⟩
    · by_cases hqp : q = p
      · rw [hqp, habove] at hq
        exact List.mem_cons.mpr (.inl (Child.hash.inj hq).symm)
      · by_cases hqn : q = sgFr.nodes
        · rw [hqn, hnew] at hq
          exact Child.noConfusion hq
        · rw [hother q hqn hqp] at hq
          exact List.mem_cons_of_mem _ (hshape.hashed.mem q h hq)
    · rcases hmem h hh with rfl | hh
      · rw [hhash]
        exact ⟨hpos, hlt⟩
      · rw [hold h hh]
        exact hshape.hashed.buckets h hh
    · rcases hmem h hh with rfl | hh
      · rw [hhash]
        exact fun he => List.cons_ne_nil _ _ (List.perm_nil.mp (he ▸ hperm).symm)
      · rw [hold h hh]
        exact hshape.hashed.flatten h hh

/-- The node joins a hash, with or without an expansion. -/
theorem added_setHash {h : ℕ} (hc : (sgFr.node p).child = .hash h) {buckets : List (List ℕ)} {n : ℕ}
    (hpos : 0 < buckets.length) (hlt : buckets.length < 2 ^ 31)
    (hperm : buckets.flatten.Perm (sgFr.nodes :: (sgFr.hash h).buckets.flatten)) :
    Added sgFr ((sgFr.newNode instr t p).setHash h ⟨buckets, n⟩) p t instr := by
  set sgFr' := (sgFr.newNode instr t p).setHash h ⟨buckets, n⟩ with hsgFr'
  have hnew : sgFr'.node sgFr.nodes = ⟨instr, t, p, false, .null⟩ := Function.update_self ..
  have hother : ∀ a, a ≠ sgFr.nodes → sgFr'.node a = sgFr.node a := fun a hn => Function.update_of_ne hn _ _
  have hhash : sgFr'.hash h = ⟨buckets, n⟩ := Function.update_self ..
  have hold : ∀ i, i ≠ h → sgFr'.hash i = sgFr.hash i := fun i hi => Function.update_of_ne hi _ _
  have hchild : (sgFr'.node p).child = .hash h := by rw [hother p hp.ne, hc]
  refine ⟨rfl, hnew, ?_, fun a hn _ => hother a hn, ?_, fun a hn ha => ?_, ?_, fun b => ?_, rfl, rfl, ?_⟩
  · rw [hother p hp.ne]
  · rw [SgFrame.kids_hash hchild, hhash, SgFrame.kids_hash hc]
    exact hperm
  · exact SgFrame.kids_congr (by rw [hother a hn]) fun i hi =>
      hold i fun he => ha (hshape.hash_inj (he ▸ hi) hc)
  · rw [hchild]
    exact Child.noConfusion
  · rw [hchild]
    exact Child.noConfusion
  · refine ⟨hshape.hashed.nodup, hshape.hashed.lt, fun i hi => ?_, fun q i hq => ?_, fun i hi => ?_, fun i hi => ?_⟩
    · obtain ⟨q, hq⟩ := hshape.hashed.chained i hi
      exact ⟨q, by rw [hother q fun he => hshape.child_nodes i (he ▸ hq), hq]⟩
    · by_cases hqn : q = sgFr.nodes
      · rw [hqn, hnew] at hq
        exact Child.noConfusion hq
      · rw [hother q hqn] at hq
        exact hshape.hashed.mem q i hq
    · by_cases hih : i = h
      · rw [hih, hhash]
        exact ⟨hpos, hlt⟩
      · rw [hold i hih]
        exact hshape.hashed.buckets i hi
    · by_cases hih : i = h
      · rw [hih, hhash]
        exact fun he => List.cons_ne_nil _ _ (List.perm_nil.mp (he ▸ hperm).symm)
      · rw [hold i hih]
        exact hshape.hashed.flatten i hi

end

theorem find?_entry {sgFr : SgFrame} {nodes : List ℕ} {t : Word} {a : ℕ}
    (h : (nodes.find? fun a => (sgFr.node a).entry == t) = some a) : a ∈ nodes ∧ (sgFr.node a).entry = t :=
  have hbeq := List.find?_some h
  ⟨List.mem_of_find?_eq_some h, eq_of_beq hbeq⟩

/-- What an insertion of an entry does: it finds a child, or adds it. -/
theorem answerTrieCheckInsertEntry_cases {sgFr sgFr' : SgFrame} {p c : ℕ} {t : Word} {instr : ℕ}
    (hshape : sgFr.Shape) (hp : p < sgFr.nodes)
    (h : answerTrieCheckInsertEntry sgFr p t instr = some (sgFr', c)) :
    (sgFr.node p).leaf = false ∧
      ((sgFr' = sgFr ∧ c ∈ sgFr.kids p ∧ (sgFr.node c).entry = t) ∨
        (c = sgFr.nodes ∧ Added sgFr sgFr' p t instr)) := by
  cases hleaf : (sgFr.node p).leaf with
  | true =>
    rw [answerTrieCheckInsertEntry, if_pos hleaf] at h
    cases h
  | false =>
    refine ⟨rfl, ?_⟩
    rw [answerTrieCheckInsertEntry, if_neg (by rw [hleaf]; exact Bool.false_ne_true)] at h
    cases hc : (sgFr.node p).child with
    | null =>
      rw [hc] at h
      cases h
      exact .inr ⟨rfl, added_chain hshape hp (SgFrame.kids_null hc) fun h hh => Child.noConfusion (hc.symm.trans hh)⟩
    | chain nodes =>
      simp only [hc] at h
      split at h
      next a hfind =>
        cases h
        obtain ⟨hmem, hentry⟩ := find?_entry hfind
        exact .inl ⟨rfl, (SgFrame.kids_chain hc).symm ▸ hmem, hentry⟩
      next =>
        split at h
        · cases h
          refine .inr ⟨rfl, added_newHash hshape hp hc ?_ ?_ ?_⟩
          · rw [length_distribute, List.length_replicate]
            decide
          · rw [length_distribute, List.length_replicate]
            decide
          · refine (distribute_perm _ (by decide) (by decide) (List.length_replicate ..) _).trans ?_
            rw [flatten_replicate_nil, List.append_nil]
        · cases h
          exact .inr ⟨rfl, added_chain hshape hp (SgFrame.kids_chain hc) fun h hh => Child.noConfusion (hc.symm.trans hh)⟩
    | hash i =>
      obtain ⟨hpos, hlt⟩ := hshape.hashed.buckets i (hshape.hashed.mem p i hc)
      have hentry : hashEntry t (sgFr.hash i).buckets.length < (sgFr.hash i).buckets.length :=
        hashEntry_lt t hpos (hlt.trans (by decide))
      have hperm := flatten_modify_cons hentry sgFr.nodes
      simp only [hc] at h
      split at h
      next a hfind =>
        cases h
        obtain ⟨hmem, hentry'⟩ := find?_entry hfind
        rw [List.getD_eq_getElem _ _ hentry] at hmem
        exact .inl ⟨rfl, (SgFrame.kids_hash hc).symm ▸ List.mem_flatten_of_mem (List.getElem_mem hentry) hmem, hentry'⟩
      next =>
        split at h
        · split at h
          next hexp =>
            cases h
            rw [List.length_modify] at hexp
            refine .inr ⟨rfl, added_setHash hshape hp hc ?_ ?_ ?_⟩
            · rw [length_expandBuckets _ (by rwa [List.length_modify]) (by rwa [List.length_modify]), List.length_modify]
              omega
            · rwa [length_expandBuckets _ (by rwa [List.length_modify]) (by rwa [List.length_modify]), List.length_modify]
            · exact (expandBuckets_perm _ (by rwa [List.length_modify]) (by rwa [List.length_modify])).trans hperm
          next => cases h
        · cases h
          refine .inr ⟨rfl, added_setHash hshape hp hc ?_ ?_ hperm⟩
          · rwa [List.length_modify]
          · rwa [List.length_modify]
    | answer a =>
      rw [hc] at h
      cases h

-- ---------------------------------------------------------------------------
-- The entries of an answer
-- ---------------------------------------------------------------------------

/-- The entries of an answer, with the families of their instructions. -/
abbrev Entries : Type := List (Word × Family)

/-- Entries are inserted one below the other, with `retry` instructions. -/
def insertEntries (trieDoVar : ℕ) : SgFrame → ℕ → Entries → Option (SgFrame × ℕ)
  | sgFr, a, [] => some (sgFr, a)
  | sgFr, a, (t, fam) :: entries =>
    (answerTrieCheckInsertEntry sgFr a t (opNumber trieDoVar fam .retry)).bind fun out =>
      insertEntries trieDoVar out.1 out.2 entries

/-- A trie with the branches `A` that is complete except below the node `cur`. -/
structure Trie (trieDoVar : ℕ) (sgFr : SgFrame) (cur : ℕ) (A : Set (List Word)) : Prop where
  shape : sgFr.Shape
  full : ∀ p, ∀ a ∈ sgFr.kids p, a ≠ cur → (sgFr.node a).leaf = true ∨ sgFr.kids a ≠ []
  retry : ∀ p, ∀ a ∈ sgFr.kids p, ∃ fam, (sgFr.node a).instr = opNumber trieDoVar fam .retry
  branches : sgFr.branches = A
  root : ∀ b, (sgFr.node 0).child ≠ .answer b

theorem Added.branch_old {sgFr sgFr' : SgFrame} {p : ℕ} {t : Word} {instr : ℕ} (h : Added sgFr sgFr' p t instr)
    {a : ℕ} {es : List Word} (hb : sgFr'.Branch a es) (ha : a ≠ sgFr.nodes) : sgFr.Branch a es := by
  induction hb with
  | root => exact .root
  | @kid q a es _ hmem ih =>
    rcases h.mem_kids hmem with ⟨_, hnew⟩ | ⟨hq, hmem⟩
    · exact absurd hnew ha
    · rw [h.entry_eq ha]
      exact .kid (ih hq) hmem

section

variable {trieDoVar : ℕ} {sgFr sgFr' : SgFrame} {cur : ℕ} {A : Set (List Word)} {es : List Word}

theorem Trie.found (htrie : Trie trieDoVar sgFr cur A) {c : ℕ} (hc : c ∈ sgFr.kids cur) : Trie trieDoVar sgFr c A where
  shape := htrie.shape
  full p a hmem _ := by
    by_cases hcur : a = cur
    · exact .inr (hcur ▸ List.ne_nil_of_mem hc)
    · exact htrie.full p a hmem hcur
  retry := htrie.retry
  branches := htrie.branches
  root := htrie.root

theorem Trie.added (htrie : Trie trieDoVar sgFr cur A) (hb : sgFr.Branch cur es) {t : Word} {fam : Family}
    (hleaf : (sgFr.node cur).leaf = false) (h : Added sgFr sgFr' cur t (opNumber trieDoVar fam .retry)) :
    Trie trieDoVar sgFr' sgFr.nodes A ∧ sgFr'.Branch sgFr.nodes (es ++ [t]) := by
  have hshape := htrie.shape
  have hlt : cur < sgFr.nodes := hb.lt_nodes hshape
  have hmono : ∀ {a es}, sgFr.Branch a es → sgFr'.Branch a es := fun hb =>
    hb.mono (fun q a hmem => h.kids_subset (Added.lt_of_mem hshape hmem).ne hmem)
      fun q a hmem => h.entry_eq (hshape.lt_nodes q a hmem).ne
  have hnew : sgFr.nodes ∈ sgFr'.kids cur := h.kids.mem_iff.mpr (List.mem_cons_self ..)
  refine ⟨⟨h.shape hshape hlt hleaf, fun q a hmem ha => ?_, fun q a hmem => ?_, ?_, fun b hb => ?_⟩, ?_⟩
  · rcases h.mem_kids hmem with ⟨_, hnew⟩ | ⟨_, hmem⟩
    · exact absurd hnew ha
    · by_cases hcur : a = cur
      · exact .inr (hcur ▸ List.ne_nil_of_mem hnew)
      · rw [h.leaf_eq ha, h.kids_other a ha hcur]
        exact htrie.full q a hmem hcur
  · rcases h.mem_kids hmem with ⟨_, rfl⟩ | ⟨_, hmem⟩
    · exact ⟨fam, congrArg AnsNode.instr h.new⟩
    · rw [h.instr_eq (hshape.lt_nodes q a hmem).ne]
      exact htrie.retry q a hmem
  · rw [← htrie.branches]
    refine Set.ext fun es' => ⟨?_, ?_⟩
    · rintro ⟨a, hba, hla⟩
      have ha : a ≠ sgFr.nodes := by
        rintro rfl
        rw [h.new] at hla
        exact Bool.noConfusion hla
      exact ⟨a, h.branch_old hba ha, (h.leaf_eq ha).symm.trans hla⟩
    · rintro ⟨a, hba, hla⟩
      exact ⟨a, hmono hba, (h.leaf_eq (hba.lt_nodes hshape).ne).trans hla⟩
  · by_cases hcur : 0 = cur
    · exact h.answer b (hcur ▸ hb)
    · rw [h.other 0 hshape.pos.ne hcur] at hb
      exact htrie.root b hb
  · have hkid := SgFrame.Branch.kid (hmono hb) hnew
    rwa [h.new] at hkid

/-- The entries lead to a node, below which the trie may be open. -/
theorem insertEntries_trie {entries : Entries} {a : ℕ} (htrie : Trie trieDoVar sgFr cur A) (hb : sgFr.Branch cur es)
    (h : insertEntries trieDoVar sgFr cur entries = some (sgFr', a)) :
    Trie trieDoVar sgFr' a A ∧ sgFr'.Branch a (es ++ entries.map Prod.fst) := by
  induction entries generalizing sgFr cur es with
  | nil =>
    cases h
    rw [List.map_nil, List.append_nil]
    exact ⟨htrie, hb⟩
  | cons item entries ih =>
    obtain ⟨⟨sgFr₁, c⟩, h₁, h₂⟩ := Option.bind_eq_some_iff.mp h
    rw [List.map_cons, List.append_cons]
    obtain ⟨hleaf, ⟨rfl, hmem, hentry⟩ | ⟨rfl, hadded⟩⟩ :=
      answerTrieCheckInsertEntry_cases htrie.shape (hb.lt_nodes htrie.shape) h₁
    · exact ih (htrie.found hmem) (hentry ▸ .kid hb hmem) h₂
    · obtain ⟨htrie', hb'⟩ := htrie.added hb hleaf hadded
      exact ih htrie' hb' h₂

/-- Below a child of the node where the trie is open, or of a later one, there is a leaf. -/
theorem Trie.exists_leaf (htrie : Trie trieDoVar sgFr cur A) {p a : ℕ} (hcur : cur ≤ p) (hmem : a ∈ sgFr.kids p)
    (hb : sgFr.Branch p es) : ∃ rest, rest ≠ [] ∧ es ++ rest ∈ sgFr.branches := by
  induction hn : sgFr.nodes - a using Nat.strong_induction_on generalizing p a es with
  | _ n ih =>
    have hpa : p < a := htrie.shape.lt p a hmem
    have hba := SgFrame.Branch.kid hb hmem
    rcases htrie.full p a hmem (hcur.trans_lt hpa).ne' with hleaf | hkids
    · exact ⟨[(sgFr.node a).entry], List.cons_ne_nil _ _, a, hba, hleaf⟩
    · obtain ⟨b, hmemb⟩ := List.exists_mem_of_ne_nil _ hkids
      have hab : a < b := htrie.shape.lt a b hmemb
      have hbn : b < sgFr.nodes := htrie.shape.lt_nodes a b hmemb
      obtain ⟨rest, _, hrest⟩ := ih (sgFr.nodes - b) (by omega) (hcur.trans hpa.le) hmemb hba rfl
      rw [List.append_assoc] at hrest
      exact ⟨_, List.append_ne_nil_of_left_ne_nil (List.cons_ne_nil _ _) _, hrest⟩

end

/-- The parts of a trie that `table_new_answer` keeps, and the new leaf. -/
structure Tagged (sgFr sgFr' : SgFrame) (ansNode : ℕ) : Prop where
  nodes : sgFr'.nodes = sgFr.nodes
  entry : ∀ a, (sgFr'.node a).entry = (sgFr.node a).entry
  instr : ∀ a, (sgFr'.node a).instr = (sgFr.node a).instr
  parent : ∀ a, (sgFr'.node a).parent = (sgFr.node a).parent
  leaf : ∀ a, (sgFr'.node a).leaf = ((sgFr.node a).leaf || a == ansNode)
  child : ∀ a, (sgFr'.node a).child = (sgFr.node a).child ∨
    ((sgFr.node a).leaf = true ∧ ∃ b, (sgFr'.node a).child = .answer b)
  hash : sgFr'.hash = sgFr.hash
  hashes : sgFr'.hashes = sgFr.hashes
  hashChain : sgFr'.hashChain = sgFr.hashChain
  last : sgFr'.lastAnswer = some ansNode

theorem tagLeaf_node (sgFr : SgFrame) (ansNode a : ℕ) :
    (sgFr.tagLeaf ansNode).node a = { sgFr.node a with leaf := (sgFr.node a).leaf || a == ansNode } := by
  by_cases ha : a = ansNode
  · rw [ha, SgFrame.tagLeaf, beq_self_eq_true, Bool.or_true]
    exact Function.update_self ..
  · rw [SgFrame.tagLeaf, beq_eq_false_iff_ne.mpr ha, Bool.or_false]
    exact Function.update_of_ne ha _ _

theorem setChild_node (sgFr : SgFrame) (a b : ℕ) (c : Child) :
    (sgFr.setChild a c).node b = { sgFr.node b with child := if b = a then c else (sgFr.node b).child } := by
  by_cases hb : b = a
  · rw [if_pos hb, hb]
    exact Function.update_self ..
  · rw [if_neg hb]
    exact Function.update_of_ne hb _ _

theorem tableNewAnswer_tagged {sgFr : SgFrame} (hshape : sgFr.Shape) (ansNode : ℕ) :
    Tagged sgFr (tableNewAnswer sgFr ansNode) ansNode := by
  have htag := tagLeaf_node sgFr ansNode
  rw [tableNewAnswer]
  split
  next first last hfirst hlast =>
    have hnode := fun a => setChild_node (sgFr.tagLeaf ansNode) last a (.answer ansNode)
    refine ⟨rfl, fun a => ?_, fun a => ?_, fun a => ?_, fun a => ?_, fun a => ?_, rfl, rfl, rfl, rfl⟩
    · rw [hnode, htag]
    · rw [hnode, htag]
    · rw [hnode, htag]
    · rw [hnode, htag]
    · rw [hnode, htag]
      by_cases ha : a = last
      · exact .inr ⟨ha ▸ (hshape.last last hlast).2, ansNode, if_pos ha⟩
      · exact .inl (if_neg ha)
  next =>
    refine ⟨rfl, fun a => ?_, fun a => ?_, fun a => ?_, fun a => ?_, fun a => ?_, rfl, rfl, rfl, rfl⟩
    · rw [htag]
    · rw [htag]
    · rw [htag]
    · rw [htag]
    · rw [htag]
      exact .inl rfl

namespace Tagged

variable {sgFr sgFr' : SgFrame} {ansNode : ℕ} (hshape : sgFr.Shape)

include hshape

theorem kids_eq (h : Tagged sgFr sgFr' ansNode) (a : ℕ) : sgFr'.kids a = sgFr.kids a := by
  rcases h.child a with hchild | ⟨hleaf, b, hchild⟩
  · exact SgFrame.kids_congr hchild fun i _ => congrFun h.hash i
  · rw [SgFrame.kids_answer hchild, hshape.leaf a hleaf]

theorem branch_iff (h : Tagged sgFr sgFr' ansNode) {a : ℕ} {es : List Word} :
    sgFr'.Branch a es ↔ sgFr.Branch a es := by
  refine ⟨fun hb => hb.mono ?_ ?_, fun hb => hb.mono ?_ ?_⟩
  · exact fun p a hmem => h.kids_eq hshape p ▸ hmem
  · exact fun _ a _ => (h.entry a).symm
  · exact fun p a hmem => (h.kids_eq hshape p).symm ▸ hmem
  · exact fun _ a _ => h.entry a

theorem child_hash_iff (h : Tagged sgFr sgFr' ansNode) (q i : ℕ) :
    (sgFr'.node q).child = .hash i ↔ (sgFr.node q).child = .hash i := by
  rcases h.child q with hchild | ⟨hleaf, b, hchild⟩
  · rw [hchild]
  · refine ⟨fun hc => Child.noConfusion (hchild.symm.trans hc), fun hc => ?_⟩
    have hkids := hshape.leaf q hleaf
    rw [SgFrame.kids_hash hc] at hkids
    exact absurd hkids (hshape.hashed.flatten i (hshape.hashed.mem q i hc))

theorem shape (h : Tagged sgFr sgFr' ansNode) (hlt : ansNode < sgFr.nodes) (hkids : sgFr.kids ansNode = []) :
    sgFr'.Shape where
  pos := h.nodes ▸ hshape.pos
  lt p a hmem := hshape.lt p a (h.kids_eq hshape p ▸ hmem)
  lt_nodes p a hmem := h.nodes ▸ hshape.lt_nodes p a (h.kids_eq hshape p ▸ hmem)
  parent p a hmem := (h.parent a).trans (hshape.parent p a (h.kids_eq hshape p ▸ hmem))
  nodup p := (h.kids_eq hshape p).symm ▸ hshape.nodup p
  chain p := by
    rcases h.child p with hchild | ⟨_, b, hchild⟩
    · rw [hchild]
      exact hshape.chain p
    · rw [hchild]
      exact Child.noConfusion
  answer p b hc := by
    rw [h.leaf, Bool.or_eq_true]
    rcases h.child p with hchild | ⟨hleaf, _⟩
    · exact .inl (hshape.answer p b (hchild ▸ hc))
    · exact .inl hleaf
  leaf p hleaf := by
    rw [h.kids_eq hshape]
    rw [h.leaf, Bool.or_eq_true, beq_iff_eq] at hleaf
    rcases hleaf with hleaf | rfl
    · exact hshape.leaf p hleaf
    · exact hkids
  last a ha := by
    rw [h.last] at ha
    cases ha
    rw [h.nodes, h.leaf, beq_self_eq_true, Bool.or_true]
    exact ⟨hlt, rfl⟩
  hashed := hshape.hashed.keep h.hash h.hashes h.hashChain (h.child_hash_iff hshape)

end Tagged

section

variable {trieDoVar : ℕ} {sgFr sgFr' : SgFrame} {A : Set (List Word)}

theorem Trie.tagged {ansNode : ℕ} {es : List Word} (htrie : Trie trieDoVar sgFr ansNode A)
    (h : Tagged sgFr sgFr' ansNode) (hb : sgFr.Branch ansNode es) (hkids : sgFr.kids ansNode = [])
    (hleaf : (sgFr.node ansNode).leaf = false) : Trie trieDoVar sgFr' 0 (insert es A) := by
  have hshape := htrie.shape
  refine ⟨h.shape hshape (hb.lt_nodes hshape) hkids, fun p a hmem _ => ?_, fun p a hmem => ?_, ?_, fun b hc => ?_⟩
  · rw [h.kids_eq hshape] at hmem
    rw [h.kids_eq hshape, h.leaf, Bool.or_eq_true, beq_iff_eq]
    by_cases ha : a = ansNode
    · exact .inl (.inr ha)
    · exact (htrie.full p a hmem ha).imp .inl id
  · rw [h.instr]
    exact htrie.retry p a (h.kids_eq hshape p ▸ hmem)
  · rw [← htrie.branches]
    refine Set.ext fun es' => ⟨?_, ?_⟩
    · rintro ⟨a, hba, hla⟩
      rw [h.branch_iff hshape] at hba
      rw [h.leaf, Bool.or_eq_true, beq_iff_eq] at hla
      rcases hla with hla | rfl
      · exact .inr ⟨a, hba, hla⟩
      · exact .inl (hba.unique hshape hb)
    · rintro (rfl | ⟨a, hba, hla⟩)
      · exact ⟨ansNode, (h.branch_iff hshape).mpr hb, by rw [h.leaf, beq_self_eq_true, Bool.or_true]⟩
      · exact ⟨a, (h.branch_iff hshape).mpr hba, by rw [h.leaf, hla, Bool.true_or]⟩
  · rcases h.child 0 with hchild | ⟨hroot, _⟩
    · exact htrie.root b (hchild ▸ hc)
    · rw [← hb.eq_root (hshape.leaf 0 hroot), hleaf] at hroot
      exact Bool.noConfusion hroot

theorem Trie.done {ansNode : ℕ} (htrie : Trie trieDoVar sgFr ansNode A) (hleaf : (sgFr.node ansNode).leaf = true) :
    Trie trieDoVar sgFr 0 A where
  shape := htrie.shape
  full p a hmem _ := by
    by_cases ha : a = ansNode
    · exact .inl (ha ▸ hleaf)
    · exact htrie.full p a hmem ha
  retry := htrie.retry
  branches := htrie.branches
  root := htrie.root

/-- Entries that none of the branches continues are one more branch. -/
theorem insertEntries_done {entries : Entries} {a : ℕ} (htrie : Trie trieDoVar sgFr 0 A)
    (hentries : ∀ rest, entries.map Prod.fst ++ rest ∈ A → rest = [])
    (h : insertEntries trieDoVar sgFr 0 entries = some (sgFr', a)) :
    Trie trieDoVar (if (sgFr'.node a).leaf then sgFr' else tableNewAnswer sgFr' a) 0
      (insert (entries.map Prod.fst) A) := by
  obtain ⟨htrie', hb⟩ := insertEntries_trie htrie .root h
  rw [List.nil_append] at hb
  cases hleaf : (sgFr'.node a).leaf with
  | true =>
    have hmem : entries.map Prod.fst ∈ A := htrie'.branches ▸ ⟨a, hb, hleaf⟩
    rw [if_pos rfl, Set.insert_eq_of_mem hmem]
    exact htrie'.done hleaf
  | false =>
    have hkids : sgFr'.kids a = [] := by
      by_contra hne
      obtain ⟨b, hmem⟩ := List.exists_mem_of_ne_nil _ hne
      obtain ⟨rest, hrest, hleaf⟩ := htrie'.exists_leaf le_rfl hmem hb
      rw [htrie'.branches] at hleaf
      exact hrest (hentries rest hleaf)
    rw [if_neg Bool.false_ne_true]
    exact htrie'.tagged (tableNewAnswer_tagged htrie'.shape a) hb hkids hleaf

end

theorem new_trie (trieDoVar state : ℕ) : Trie trieDoVar (SgFrame.new state) 0 ∅ := by
  have hno : ∀ p a, a ∉ (SgFrame.new state).kids p := fun p a => List.not_mem_nil
  refine ⟨⟨Nat.zero_lt_one, fun p a h => absurd h (hno p a), fun p a h => absurd h (hno p a),
    fun p a h => absurd h (hno p a), fun p => List.nodup_nil, fun p => Child.noConfusion,
    fun p b h => Child.noConfusion h, fun p h => rfl, fun a h => absurd h (Option.some_ne_none a).symm, ?_⟩,
    fun p a h => absurd h (hno p a), fun p a h => absurd h (hno p a), ?_, fun b => Child.noConfusion⟩
  · exact ⟨List.nodup_nil, fun h hh => absurd hh List.not_mem_nil, fun h hh => absurd hh List.not_mem_nil,
      fun p h hh => Child.noConfusion hh, fun h hh => absurd hh List.not_mem_nil, fun h hh => absurd hh List.not_mem_nil⟩
  · refine Set.eq_empty_of_forall_notMem fun es => ?_
    rintro ⟨a, _, hleaf⟩
    exact Bool.noConfusion hleaf

end Yap.Tabling
