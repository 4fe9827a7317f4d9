-- SUMMARY: Tries represent terms up to variants, where large integers are in the same boxes and no term lacks words.
import Yap.Library.Tries.Read

/-!
# Terms in a trie

The trie of one term is the path of its words. Another term is found there when
its words are a prefix of the path, and it runs past the leaf when they go on
after it.
-/

namespace Yap

namespace Tries

variable {sym : Symbols} {box : Addr → LongInt} {trie : Trie} {node : TrNode} {s t u : Term}

-- ---------------------------------------------------------------------------
-- Paths
-- ---------------------------------------------------------------------------

/-- A path is added that does not run past a leaf. -/
theorem insert_path (ws : List ℕ) (trie : Trie) (node : TrNode)
    (h : ∀ p q, ws = p ++ q → q ≠ [] → p.reverse ++ node ∉ trie.leaves) :
    ∃ trie', ws.foldlM trieNodeCheckInsert (trie, node) = .ok (trie', ws.reverse ++ node) ∧
      trie'.leaves = trie.leaves ∧
      ∀ x, x ∈ trie'.nodes ↔ x ∈ trie.nodes ∨ ∃ p q, ws = p ++ q ∧ p ≠ [] ∧ x = p.reverse ++ node := by
  induction ws generalizing trie node with
  | nil =>
    refine ⟨trie, rfl, rfl, fun x => ⟨.inl, ?_⟩⟩
    rintro (hx | ⟨p, q, hpq, hp, -⟩)
    · exact hx
    · exact absurd (List.append_eq_nil_iff.mp hpq.symm).1 hp
  | cons w ws ih =>
    have hleaf : node ∉ trie.leaves := h [] (w :: ws) rfl (List.cons_ne_nil _ _)
    -- the trie with the next node
    obtain ⟨trie1, hstep, hleaves, hnodes⟩ : ∃ trie1, trieNodeCheckInsert (trie, node) w = .ok (trie1, w :: node) ∧
        trie1.leaves = trie.leaves ∧ ∀ x, x ∈ trie1.nodes ↔ x ∈ trie.nodes ∨ x = w :: node := by
      unfold trieNodeCheckInsert
      rw [if_neg hleaf]
      split_ifs with hnode
      · refine ⟨trie, rfl, rfl, fun x => ⟨.inl, ?_⟩⟩
        rintro (hx | rfl)
        · exact hx
        · exact hnode
      · exact ⟨_, rfl, rfl, fun x => by rw [List.mem_cons, or_comm]⟩
    obtain ⟨trie', hrun, hleaves', hnodes'⟩ := ih trie1 (w :: node) fun p q hpq hq => by
      have hnext := h (w :: p) q (by rw [hpq, List.cons_append]) hq
      rw [hleaves]
      rwa [List.reverse_cons, List.append_assoc] at hnext
    refine ⟨trie', ?_, hleaves'.trans hleaves, fun x => ?_⟩
    · rw [List.foldlM_cons, hstep, List.reverse_cons, List.append_assoc]
      exact hrun
    · rw [hnodes', hnodes, or_assoc]
      refine or_congr_right ⟨?_, ?_⟩
      · rintro (rfl | ⟨p, q, rfl, hp, rfl⟩)
        · exact ⟨[w], ws, rfl, List.cons_ne_nil _ _, rfl⟩
        · exact ⟨w :: p, q, rfl, List.cons_ne_nil _ _, by rw [List.reverse_cons, List.append_assoc]; rfl⟩
      · rintro ⟨p, q, hpq, hp, rfl⟩
        obtain ⟨x, p, rfl⟩ := List.exists_cons_of_ne_nil hp
        obtain ⟨rfl, rfl⟩ := List.cons.inj hpq
        rcases eq_or_ne p [] with rfl | hp'
        · exact .inl rfl
        · exact .inr ⟨p, q, rfl, hp', by rw [List.reverse_cons, List.append_assoc]; rfl⟩

/-- A path that is there is found again, and nothing is added. -/
theorem insert_found (trie : Trie) (ws : List ℕ) (node : TrNode)
    (hleaf : ∀ p q, ws = p ++ q → q ≠ [] → p.reverse ++ node ∉ trie.leaves)
    (hnode : ∀ p q, ws = p ++ q → p ≠ [] → p.reverse ++ node ∈ trie.nodes) :
    ws.foldlM trieNodeCheckInsert (trie, node) = .ok (trie, ws.reverse ++ node) := by
  induction ws generalizing node with
  | nil => rfl
  | cons w ws ih =>
    have hstep : trieNodeCheckInsert (trie, node) w = .ok (trie, w :: node) := by
      have hgo : node ∉ trie.leaves := hleaf [] (w :: ws) rfl (List.cons_ne_nil _ _)
      have hchild : w :: node ∈ trie.nodes := hnode [w] ws rfl (List.cons_ne_nil _ _)
      unfold trieNodeCheckInsert
      rw [if_neg hgo, if_pos hchild]
    rw [List.foldlM_cons, hstep, List.reverse_cons, List.append_assoc]
    refine ih (w :: node) (fun p q hpq hq => ?_) fun p q hpq hp => ?_
    · have hnext := hleaf (w :: p) q (by rw [hpq, List.cons_append]) hq
      rwa [List.reverse_cons, List.append_assoc] at hnext
    · have hnext := hnode (w :: p) q (by rw [hpq, List.cons_append]) (List.cons_ne_nil _ _)
      rwa [List.reverse_cons, List.append_assoc] at hnext

/-- The trie of one path, which ends at its leaf. -/
structure OnePath (trie : Trie) (ws : List ℕ) : Prop where
  nodes : ∀ x, x ∈ trie.nodes ↔ ∃ p q, ws = p ++ q ∧ p ≠ [] ∧ x = p.reverse
  leaves : trie.leaves = [ws.reverse]

/-- How a path is followed along another one that ends at a leaf. -/
def follow : List ℕ → List ℕ → Except Stop Unit
  | _, [] => .ok ()
  | [], _ :: _ => .error .crash
  | v :: vs, w :: ws => if w = v then follow vs ws else .error .null

theorem follow_ok_iff (vs ws : List ℕ) : follow vs ws = .ok () ↔ ws <+: vs := by
  induction vs generalizing ws with
  | nil =>
    cases ws with
    | nil => simp [follow]
    | cons w ws => simp [follow]
  | cons v vs ih =>
    cases ws with
    | nil => simp [follow]
    | cons w ws =>
      rw [follow, List.cons_prefix_cons]
      split_ifs with hw
      · rw [ih]
        simp [hw]
      · simp [hw]

theorem follow_crash_iff (vs ws : List ℕ) : follow vs ws = .error .crash ↔ vs <+: ws ∧ vs ≠ ws := by
  induction vs generalizing ws with
  | nil =>
    cases ws with
    | nil => simp [follow]
    | cons w ws => simp [follow]
  | cons v vs ih =>
    cases ws with
    | nil => simp [follow]
    | cons w ws =>
      rw [follow, List.cons_prefix_cons]
      split_ifs with hw
      · rw [ih]
        simp [hw]
      · simp [Ne.symm hw]

theorem OnePath.check {ws : List ℕ} (h : OnePath trie ws) (us : List ℕ) (p r : List ℕ) (hws : ws = p ++ r) :
    us.foldlM (trieNodeCheck trie) p.reverse = (follow r us >>= fun _ => .ok (us.reverse ++ p.reverse)) := by
  induction us generalizing p r with
  | nil => cases r <;> rfl
  | cons w us ih =>
    rw [List.foldlM_cons]
    cases r with
    | nil =>
      have hleaf : p.reverse ∈ trie.leaves := by
        rw [h.leaves, hws, List.append_nil]
        exact List.mem_singleton_self _
      rw [trieNodeCheck, if_pos (.inl hleaf)]
      rfl
    | cons v r =>
      have hchild : v :: p.reverse ∈ trie.nodes :=
        (h.nodes _).mpr ⟨p ++ [v], r, by rw [hws, List.append_assoc]; rfl, by simp, by simp⟩
      have hgo : ¬ (p.reverse ∈ trie.leaves ∨ ¬ trie.hasChild p.reverse = true) := by
        rintro (hleaf | hnone)
        · rw [h.leaves, List.mem_singleton, List.reverse_inj, hws] at hleaf
          simp at hleaf
        · refine hnone (List.any_eq_true.mpr ⟨_, hchild, ?_⟩)
          simp
      rw [trieNodeCheck, if_neg hgo, follow]
      by_cases hw : w = v
      · subst hw
        have hrest := ih (p ++ [w]) r (by rw [hws, List.append_assoc]; rfl)
        rw [if_pos hchild, if_pos rfl]
        rw [List.reverse_append, List.reverse_singleton, List.singleton_append] at hrest
        rw [List.reverse_cons, List.append_assoc]
        exact hrest
      · have hnone : ¬ w :: p.reverse ∈ trie.nodes := by
          intro hmem
          obtain ⟨p', q, hpq, -, hx⟩ := (h.nodes _).mp hmem
          rw [← List.reverse_inj, List.reverse_reverse, List.reverse_cons, List.reverse_reverse] at hx
          rw [← hx, hws, List.append_assoc] at hpq
          exact hw (List.cons.inj (List.append_cancel_left hpq)).1.symm
        rw [if_neg hnone, if_neg hw]
        rfl

-- ---------------------------------------------------------------------------
-- The trie of one term
-- ---------------------------------------------------------------------------

theorem putEntry_eq (sym : Symbols) (t : Term) (trie : Trie) :
    putEntry sym t (trie, []) [] =
      ((words sym t).foldlM trieNodeCheckInsert (trie, []) >>= fun node => .ok (node, seen t [])) :=
  walk_eq t .entry (trie, []) [] (seen t []) List.prefix_rfl

theorem checkEntry_eq (sym : Symbols) (trie : Trie) (t : Term) :
    checkEntry sym trie t [] [] =
      ((words sym t).foldlM (trieNodeCheck trie) [] >>= fun node => .ok (node, seen t [])) :=
  walk_eq t .entry [] [] (seen t []) List.prefix_rfl

theorem onePath_put (sym : Symbols) (s : Term) :
    ∃ trie, coreTriePutEntry sym coreTrieOpen s = .ok (trie, (words sym s).reverse) ∧ OnePath trie (words sym s) := by
  obtain ⟨trie, hrun, hleaves, hnodes⟩ := insert_path (words sym s) coreTrieOpen [] fun _ _ _ _ => List.not_mem_nil
  rw [List.append_nil] at hrun
  refine ⟨{ trie with leaves := [(words sym s).reverse] }, ?_, ⟨fun x => ?_, rfl⟩⟩
  · unfold coreTriePutEntry
    have hnone : (words sym s).reverse ∉ trie.leaves := by
      rw [hleaves]
      exact List.not_mem_nil
    rw [putEntry_eq, hrun]
    show (if (words sym s).reverse ∈ trie.leaves then _ else _) = _
    rw [if_neg hnone, hleaves]
    rfl
  · rw [hnodes]
    simp [coreTrieOpen]

theorem words_ne_nil (sym : Symbols) (h : Writable t) : words sym t ≠ [] := by
  obtain ⟨w, rest, hw, -⟩ := (oneTerm_wordsBy sym h fun v => (seen t []).idxOf v).1
  rw [words, hw]
  exact List.cons_ne_nil _ _

/-- Checking a term follows its words along the path. -/
theorem OnePath.checkEntry_eq (h : OnePath trie (words sym s)) (hs : words sym s ≠ []) (t : Term) :
    coreTrieCheckEntry sym trie t = (follow (words sym s) (words sym t) >>= fun _ => .ok (words sym t).reverse) := by
  have hroot : trie.hasChild [] = true := by
    obtain ⟨w, ws, hws⟩ := List.exists_cons_of_ne_nil hs
    have hchild : [w] ∈ trie.nodes := (h.nodes _).mpr ⟨[w], ws, hws, List.cons_ne_nil _ _, rfl⟩
    exact List.any_eq_true.mpr ⟨_, hchild, by simp⟩
  have hcheck := h.check (words sym t) [] (words sym s) rfl
  rw [List.reverse_nil] at hcheck
  unfold coreTrieCheckEntry
  rw [if_neg (by simp [hroot]), Tries.checkEntry_eq, hcheck, List.append_nil]
  cases follow (words sym s) (words sym t) <;> rfl

theorem OnePath.put_again (h : OnePath trie (words sym s)) (heq : words sym t = words sym s) :
    coreTriePutEntry sym trie t = .ok (trie, (words sym s).reverse) := by
  have hfound := insert_found trie (words sym s) [] (fun p q hpq hq => ?_) fun p q hpq hp => ?_
  · unfold coreTriePutEntry
    rw [putEntry_eq, heq, hfound, List.append_nil]
    show (if (words sym s).reverse ∈ trie.leaves then _ else _) = _
    rw [if_pos (by rw [h.leaves]; exact List.mem_singleton_self _)]
    rfl
  · rw [h.leaves, List.mem_singleton, List.append_nil, List.reverse_inj]
    intro hp
    rw [hp] at hpq
    exact hq (List.append_right_eq_self.mp hpq.symm)
  · rw [List.append_nil]
    exact (h.nodes _).mpr ⟨p, q, hpq, hp, rfl⟩

/-- Another path that does not run past the leaf gets a leaf of its own. -/
theorem OnePath.put_other (h : OnePath trie (words sym s)) (hpast : ¬ words sym s <+: words sym t) :
    ∃ trie', coreTriePutEntry sym trie t = .ok (trie', (words sym t).reverse) := by
  obtain ⟨trie', hrun, hleaves, -⟩ := insert_path (words sym t) trie [] fun p q hpq hq => by
    rw [h.leaves, List.mem_singleton, List.append_nil, List.reverse_inj]
    rintro rfl
    exact hpast ⟨q, hpq.symm⟩
  rw [List.append_nil] at hrun
  unfold coreTriePutEntry
  rw [putEntry_eq, hrun]
  by_cases hleaf : (words sym t).reverse ∈ trie'.leaves
  · exact ⟨trie', if_pos hleaf⟩
  · exact ⟨_, if_neg hleaf⟩

end Tries

end Yap
