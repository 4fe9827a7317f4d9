-- SUMMARY: The lists of attributes in memory: their links and open tails, what the search finds in them, and the links after a deletion and after an addition.
import Yap.Attributes.Code

/-!
# Lists of attributes

The last argument of an entry leads to the next entry, directly or through a bound
variable, and that of the last entry leads to an unbound variable. The variables
are kept apart from the cells of the entries. Deletions link past an entry, and
additions bind the variable at the end.
-/

namespace Yap

/-- An entry: the address of its functor, the module and the value. -/
structure AttEntry where
  p : ℕ
  mod : Atom
  value : AttCell

variable (m : ℕ → AttCell) (vars : Set ℕ) (hi : ℕ)

/-- The first cells of an entry. -/
structure AttEntry.StoredIn (e : AttEntry) : Prop where
  functor : m e.p = .functor functorAtt1
  mod : m (e.p + 1) = .nonvar (.atom e.mod)
  value : m (e.p + 2) = e.value

/-- A cell leads to an entry, directly or through a variable. -/
def LeadsTo (a p : ℕ) : Prop :=
  m a = .nonvar (.appl p) ∨ ∃ u ∈ vars, m a = .ref u ∧ m u = .nonvar (.appl p)

/-- A cell below `hi` leads through entries, at increasing addresses, to an unbound
    variable. -/
def Links : ℕ → List AttEntry → ℕ → Prop
  | a, [], t => a ∉ vars ∧ a < hi ∧ t ∈ vars ∧ m a = .ref t ∧ m t = .ref t
  | a, e :: es, t =>
    a ∉ vars ∧ a < e.p ∧ (∀ i < 3, e.p + i ∉ vars) ∧ LeadsTo m vars a e.p ∧ e.StoredIn m ∧
      Links (e.p + 3) es t

/-- What a cell with links leads to. -/
def firstOf (t : ℕ) : List AttEntry → AttCell
  | [] => .ref t
  | e :: _ => .nonvar (.appl e.p)

/-- The search takes an entry for its module, or for the name of its functor. -/
def AttEntry.matches (mname : Atom) (e : AttEntry) : Bool := e.mod = mname || atomAtt1 = mname

variable {m vars hi}

-- ---------------------------------------------------------------------------
-- Links
-- ---------------------------------------------------------------------------

namespace Links

variable {m' : ℕ → AttCell} {a t : ℕ} {es : List AttEntry}

theorem tail_mem (h : Links m vars hi a es t) : t ∈ vars := by
  induction es generalizing a with
  | nil => exact h.2.2.1
  | cons e es ih => exact ih h.2.2.2.2.2

theorem tail_unbound (h : Links m vars hi a es t) : m t = .ref t := by
  induction es generalizing a with
  | nil => exact h.2.2.2.2
  | cons e es ih => exact ih h.2.2.2.2.2

/-- There is room for the entries below `hi`. -/
theorem length_lt (h : Links m vars hi a es t) : a + 4 * es.length < hi := by
  induction es generalizing a with
  | nil => exact h.2.1
  | cons e es ih =>
      have htail := ih h.2.2.2.2.2
      have hlt := h.2.1
      simp only [List.length_cons]
      omega

/-- Links depend on the cells from the first one on, and on the variables. -/
theorem congr (h : Links m vars hi a es t) (hm : ∀ x, a ≤ x → x < hi → m x = m' x)
    (hvars : ∀ u ∈ vars, m u = m' u) : Links m' vars hi a es t := by
  induction es generalizing a with
  | nil =>
      obtain ⟨ha, hlt, ht, hat, htt⟩ := h
      exact ⟨ha, hlt, ht, hm a le_rfl hlt ▸ hat, hvars t ht ▸ htt⟩
  | cons e es ih =>
      obtain ⟨ha, hlt, hcells, hleads, hstored, htail⟩ := h
      have hbound := htail.length_lt
      refine ⟨ha, hlt, hcells, ?_, ?_, ih htail fun x hx hx' => hm x (by omega) hx'⟩
      · rw [LeadsTo, ← hm a le_rfl (by omega)]
        obtain hap | ⟨u, hu, hau, hup⟩ := hleads
        · exact .inl hap
        · exact .inr ⟨u, hu, hau, hvars u hu ▸ hup⟩
      · obtain ⟨hf, hmod, hvalue⟩ := hstored
        refine ⟨?_, ?_, ?_⟩
        · rw [← hm _ (by omega) (by omega), hf]
        · rw [← hm _ (by omega) (by omega), hmod]
        · rw [← hm _ (by omega) (by omega), hvalue]

/-- There can be more variables, and more room, away from the links. -/
theorem mono {vars' : Set ℕ} {hi' : ℕ} (h : Links m vars hi a es t) (hsub : vars ⊆ vars')
    (hnew : ∀ u ∈ vars', u ∉ vars → hi ≤ u) (hhi : hi ≤ hi') : Links m vars' hi' a es t := by
  induction es generalizing a with
  | nil =>
      obtain ⟨ha, hlt, ht, hat, htt⟩ := h
      refine ⟨fun ha' => ?_, hlt.trans_le hhi, hsub ht, hat, htt⟩
      have hle := hnew a ha' ha
      omega
  | cons e es ih =>
      obtain ⟨ha, hlt, hcells, hleads, hstored, htail⟩ := h
      have hbound := htail.length_lt
      refine ⟨fun ha' => ?_, hlt, fun i hi ha' => ?_, ?_, hstored, ih htail⟩
      · have hle := hnew a ha' ha
        omega
      · have hle := hnew _ ha' (hcells i hi)
        omega
      · obtain hap | ⟨u, hu, hup⟩ := hleads
        · exact .inl hap
        · exact .inr ⟨u, hsub hu, hup⟩

theorem deref_start (h : Links m vars hi a es t) (n : ℕ) :
    Machine.derefCells m (n + 1) (m a) = firstOf t es := by
  cases es with
  | nil =>
      obtain ⟨-, -, -, hat, htt⟩ := h
      rw [hat, Machine.derefCells, if_pos htt]
      rfl
  | cons e es =>
      obtain ⟨-, -, -, hleads, -, -⟩ := h
      obtain hap | ⟨u, -, hau, hup⟩ := hleads
      · rw [hap]
        rfl
      · rw [hau, Machine.derefCells, hup, if_neg (by rintro ⟨⟩)]
        cases n <;> rfl

end Links

-- ---------------------------------------------------------------------------
-- The search
-- ---------------------------------------------------------------------------

section

variable {s : Machine} {a t : ℕ} {e : AttEntry} {es : List AttEntry} (hhr : 0 < s.hr)
include hhr

theorem Machine.deref_start (h : Links s.mem vars hi a es t) : s.deref (s.mem a) = firstOf t es := by
  obtain ⟨n, hn⟩ : ∃ n, s.hr = n + 1 := ⟨s.hr - 1, by omega⟩
  rw [deref, hn]
  exact h.deref_start n

theorem Machine.argOfTerm_three (h : Links s.mem vars hi (e.p + 3) es t) :
    s.argOfTerm 3 e.p = firstOf t es :=
  deref_start hhr h

omit hhr in
theorem AttEntry.StoredIn.argOfTerm_one (h : e.StoredIn s.mem) :
    s.argOfTerm 1 e.p = .nonvar (.atom e.mod) := by
  rw [Machine.argOfTerm, h.mod, Machine.deref]
  cases s.hr <;> rfl

omit hhr in
theorem AttEntry.StoredIn.argOfTerm_two (h : e.StoredIn s.mem) : s.argOfTerm 2 e.p = s.deref e.value := by
  rw [Machine.argOfTerm, h.value]

omit hhr in
theorem AttEntry.StoredIn.nameOfTerm (h : e.StoredIn s.mem) : s.nameOfTerm e.p = some atomAtt1 := by
  rw [Machine.nameOfTerm, h.functor]
  rfl

/-- The search finds the first entry that matches, or the variable at the end. -/
theorem Machine.fst_search (h : Links s.mem vars hi a es t) (mname : Atom) {n : ℕ}
    (hn : es.length < n) (q : Option ℕ) :
    (s.searchAttsForModuleAsNameTerm mname n (firstOf t es) q).map Prod.fst =
      some (((es.find? (·.matches mname)).map fun e => .nonvar (.appl e.p)).getD (.ref t)) := by
  induction es generalizing a n q with
  | nil =>
      obtain ⟨n, rfl⟩ : ∃ k, n = k + 1 := ⟨n - 1, by omega⟩
      rfl
  | cons e es ih =>
      obtain ⟨n, rfl⟩ : ∃ k, n = k + 1 := ⟨n - 1, by simp at hn; omega⟩
      obtain ⟨-, -, -, -, hstored, htail⟩ := h
      rw [firstOf, searchAttsForModuleAsNameTerm, hstored.argOfTerm_one, hstored.nameOfTerm,
        argOfTerm_three hhr htail]
      by_cases hmatch : e.matches mname
      · have hfound : AttCell.nonvar (.atom e.mod) = .nonvar (.atom mname) ∨ some atomAtt1 = some mname := by
          simpa [AttEntry.matches] using hmatch
        rw [if_pos hfound, List.find?_cons_of_pos hmatch]
        rfl
      · have hother : ¬ (AttCell.nonvar (.atom e.mod) = .nonvar (.atom mname) ∨
            some atomAtt1 = some mname) := by
          simpa [AttEntry.matches] using hmatch
        rw [if_neg hother, List.find?_cons_of_neg hmatch]
        exact ih htail (by simpa using hn) _

end

-- ---------------------------------------------------------------------------
-- Deletion
-- ---------------------------------------------------------------------------

/-- A cell that links to an entry can link to what follows it. -/
theorem Links.unlink {a t : ℕ} {e : AttEntry} {es : List AttEntry}
    (h : Links m vars hi a (e :: es) t) :
    Links (Function.update m a (firstOf t es)) vars hi a es t := by
  obtain ⟨ha, hlt, -, -, -, htail⟩ := h
  have hvars : ∀ u ∈ vars, m u = Function.update m a (firstOf t es) u := by
    intro u hu
    rw [Function.update_of_ne]
    rintro rfl
    exact ha hu
  have hrest : Links (Function.update m a (firstOf t es)) vars hi (e.p + 3) es t := by
    refine htail.congr (fun x hx _ => ?_) hvars
    rw [Function.update_of_ne (by omega)]
  have hbound := htail.length_lt
  cases es with
  | nil =>
      refine ⟨ha, by omega, htail.tail_mem, Function.update_self .., ?_⟩
      rw [← hvars t htail.tail_mem, htail.tail_unbound]
  | cons e' es =>
      obtain ⟨-, hlt', hcells, -, hstored, htail'⟩ := hrest
      exact ⟨ha, by omega, hcells, .inl (Function.update_self ..), hstored, htail'⟩

/-- A write to a later link leaves the link to the first entry, and the entry. -/
theorem Links.cons_update {a t pt : ℕ} {c : AttCell} {e : AttEntry} {es es' : List AttEntry}
    (h : Links m vars hi a (e :: es) t) (hpt : e.p + 3 ≤ pt) (hvars : pt ∉ vars)
    (htail : Links (Function.update m pt c) vars hi (e.p + 3) es' t) :
    Links (Function.update m pt c) vars hi a (e :: es') t := by
  obtain ⟨ha, hlt, hcells, hleads, ⟨hf, hmod, hvalue⟩, -⟩ := h
  refine ⟨ha, hlt, hcells, ?_, ⟨?_, ?_, ?_⟩, htail⟩
  · rw [LeadsTo, Function.update_of_ne (by omega)]
    obtain hap | ⟨u, hu, hau, hup⟩ := hleads
    · exact .inl hap
    · have hne : u ≠ pt := by
        rintro rfl
        exact hvars hu
      exact .inr ⟨u, hu, hau, by rw [Function.update_of_ne hne, hup]⟩
  · rw [Function.update_of_ne (by omega), hf]
  · rw [Function.update_of_ne (by omega), hmod]
  · rw [Function.update_of_ne (by omega), hvalue]

/-- The cell that a deletion writes to: the first cell or the last one of an entry. -/
def LinkCell (a : ℕ) (es : List AttEntry) (pt : ℕ) : Prop := pt = a ∨ ∃ e ∈ es, pt = e.p + 3

theorem Links.linkCell_le {a t pt : ℕ} {es : List AttEntry} (h : Links m vars hi a es t)
    (hpt : LinkCell a es pt) : a ≤ pt ∧ pt < hi ∧ pt ∉ vars := by
  induction es generalizing a with
  | nil =>
      obtain rfl | ⟨e, he, -⟩ := hpt
      · exact ⟨le_rfl, h.2.1, h.1⟩
      · cases he
  | cons e es ih =>
      obtain ⟨ha, hlt, -, -, -, htail⟩ := h
      have hbound := htail.length_lt
      have hrest : LinkCell (e.p + 3) es pt → a ≤ pt ∧ pt < hi ∧ pt ∉ vars := by
        intro hlink
        obtain ⟨hle, hrest⟩ := ih htail hlink
        exact ⟨by omega, hrest⟩
      obtain rfl | ⟨e', he', rfl⟩ := hpt
      · exact ⟨le_rfl, by omega, ha⟩
      · obtain rfl | he' := List.mem_cons.mp he'
        · exact hrest (.inl rfl)
        · exact hrest (.inr ⟨e', he', rfl⟩)

section

variable {s : Machine} {a t : ℕ} {es : List AttEntry} {mod : Atom} (hhr : 0 < s.hr)
include hhr

theorem Machine.delAtts_of_forall (h : Links s.mem vars hi a es t) (hmod : ∀ e ∈ es, e.mod ≠ mod)
    {n : ℕ} (hn : es.length < n) (pt : ℕ) :
    delAtts mod s n pt (firstOf t es) = some (none, s) := by
  induction es generalizing a n pt with
  | nil =>
      obtain ⟨n, rfl⟩ : ∃ k, n = k + 1 := ⟨n - 1, by omega⟩
      rfl
  | cons e es ih =>
      obtain ⟨n, rfl⟩ : ∃ k, n = k + 1 := ⟨n - 1, by simp at hn; omega⟩
      obtain ⟨-, -, -, -, hstored, htail⟩ := h
      have hother : AttCell.nonvar (.atom e.mod) ≠ .nonvar (.atom mod) := by
        simpa using hmod e (List.mem_cons_self ..)
      rw [firstOf, delAtts, hstored.argOfTerm_one, if_neg hother, argOfTerm_three hhr htail]
      exact ih htail (fun e' he' => hmod e' (List.mem_cons_of_mem _ he')) (by simpa using hn) _

/-- A deletion gives the value of the entry, and links past it. -/
theorem Machine.delAtts_of_mem (h : Links s.mem vars hi a es t) {e : AttEntry}
    (he : es.find? (·.mod = mod) = some e) {n : ℕ} (hn : es.length < n) :
    ∃ pt c, LinkCell a es pt ∧
      delAtts mod s n a (firstOf t es) = some (some (s.deref e.value), s.maBind pt c) ∧
      Links (Function.update s.mem pt c) vars hi a (es.eraseP (·.mod = mod)) t ∧
      (s.mem a = firstOf t es → Function.update s.mem pt c a = firstOf t (es.eraseP (·.mod = mod))) := by
  induction es generalizing a n with
  | nil => cases he
  | cons e' es ih =>
      obtain ⟨n, rfl⟩ : ∃ k, n = k + 1 := ⟨n - 1, by simp at hn; omega⟩
      have hlinks := h
      obtain ⟨-, -, -, -, hstored, htail⟩ := h
      rw [firstOf, delAtts, hstored.argOfTerm_one, argOfTerm_three hhr htail]
      by_cases hmod : e'.mod = mod
      · obtain rfl : e' = e := by simpa [hmod] using he
        refine ⟨a, firstOf t es, .inl rfl, ?_, ?_⟩
        · rw [if_pos (by rw [hmod]), hstored.argOfTerm_two]
        · rw [List.eraseP_cons_of_pos (by simpa using hmod)]
          exact ⟨hlinks.unlink, fun _ => Function.update_self ..⟩
      · have hother : AttCell.nonvar (.atom e'.mod) ≠ .nonvar (.atom mod) := by simpa using hmod
        rw [List.find?_cons_of_neg (by simpa using hmod)] at he
        obtain ⟨pt, c, hpt, hdel, hlinked, -⟩ := ih htail he (by simpa using hn)
        obtain ⟨hle, -, hvars⟩ := htail.linkCell_le hpt
        refine ⟨pt, c, ?_, ?_, ?_⟩
        · obtain rfl | ⟨e'', he'', rfl⟩ := hpt
          · exact .inr ⟨e', List.mem_cons_self .., rfl⟩
          · exact .inr ⟨e'', List.mem_cons_of_mem _ he'', rfl⟩
        · rw [if_neg hother, hdel]
        · rw [List.eraseP_cons_of_neg (by simpa using hmod)]
          have hlt := hlinks.2.1
          refine ⟨hlinks.cons_update hle hvars hlinked, fun hfirst => ?_⟩
          rw [Function.update_of_ne (by omega), hfirst]
          rfl

end

-- ---------------------------------------------------------------------------
-- Addition
-- ---------------------------------------------------------------------------

/-- An entry at the end of the links, behind a new variable at `hi`. -/
theorem Links.append {m' : ℕ → AttCell} {a t : ℕ} {es : List AttEntry} {mod : Atom} {value : AttCell}
    (h : Links m vars hi a es t) (hbelow : ∀ u ∈ vars, u < hi) (ht : m' t = .nonvar (.appl (hi + 1)))
    (hm : ∀ x < hi, x ≠ t → m x = m' x) (hstored : (⟨hi + 1, mod, value⟩ : AttEntry).StoredIn m')
    (hvar : m' hi = .ref hi) (hlast : m' (hi + 4) = .ref hi) :
    Links m' (insert hi vars) (hi + 5) a (es ++ [⟨hi + 1, mod, value⟩]) hi := by
  have hfresh : ∀ x, x ∉ vars → x ≠ hi → x ∉ insert hi vars := by
    rintro x hx hne (rfl | hx')
    · exact hne rfl
    · exact hx hx'
  have hnew : ∀ x, hi < x → x ∉ insert hi vars := by
    refine fun x hx => hfresh x (fun hx' => ?_) hx.ne'
    exact absurd (hbelow x hx') (by omega)
  have hleads : ∀ {a p : ℕ}, a < hi → a ∉ vars → m t = .ref t → LeadsTo m vars a p →
      LeadsTo m' (insert hi vars) a p := by
    intro a p hlt ha htt hleads
    have hat : a ≠ t ∨ m a = .nonvar (.appl p) → m a = m' a := by
      rintro (hat | hap)
      · exact hm a hlt hat
      · refine hm a hlt ?_
        rintro rfl
        cases htt.symm.trans hap
    obtain hap | ⟨u, hu, hau, hup⟩ := hleads
    · exact .inl (hat (.inr hap) ▸ hap)
    · have hut : u ≠ t := by
        rintro rfl
        cases htt.symm.trans hup
      have hat' : a ≠ t := by
        rintro rfl
        exact hut (AttCell.ref.inj (hau.symm.trans htt))
      refine .inr ⟨u, Set.mem_insert_of_mem _ hu, hat (.inl hat') ▸ hau, ?_⟩
      rw [← hm u (hbelow u hu) hut, hup]
  induction es generalizing a with
  | nil =>
      obtain ⟨ha, hlt, htvars, hat, -⟩ := h
      have hne : a ≠ t := by
        rintro rfl
        exact ha htvars
      refine ⟨hfresh a ha hlt.ne, by simp only; omega, fun i _ => hnew _ (by simp only; omega),
        .inr ⟨t, Set.mem_insert_of_mem _ htvars, hm a hlt hne ▸ hat, ht⟩, hstored, ?_⟩
      exact ⟨hnew _ (by simp only; omega), by simp only; omega, Set.mem_insert .., hlast, hvar⟩
  | cons e es ih =>
      have htt := h.tail_unbound
      have htvars := h.tail_mem
      obtain ⟨ha, hlt, hcells, hlead, ⟨hf, hmod, hvalue⟩, htail⟩ := h
      have hbound := htail.length_lt
      have hcell : ∀ i < 3, m (e.p + i) = m' (e.p + i) := by
        intro i hi
        refine hm _ (by omega) ?_
        rintro rfl
        exact hcells i hi htvars
      refine ⟨hfresh a ha (by omega), hlt, fun i hi => hfresh _ (hcells i hi) (by omega),
        hleads (by omega) ha htt hlead, ⟨?_, ?_, ?_⟩, ih htail⟩
      · exact hcell 0 (by omega) ▸ hf
      · exact hcell 1 (by omega) ▸ hmod
      · exact hcell 2 (by omega) ▸ hvalue

end Yap
