-- SUMMARY: transpose/2, compose/3 and transitive_closure/2 of library(ugraphs) as operations on relations.
import Yap.Library.Ugraphs.Update
import Yap.Base.Assoc
import Yap.Base.Closure

/-!
# Transpose, composition and closure

The transpose puts each vertex in front of the rows of its neighbours, the
composition merges the rows of the neighbours, and the closure is Warshall's:
for each vertex its row is united with the rows that contain it.
-/

namespace Yap

namespace Ugraphs

open Ordsets Relation

variable {α : Type*} [LinearOrder α]

-- ---------------------------------------------------------------------------
-- Code
-- ---------------------------------------------------------------------------

/-- `transpose_s/4`. -/
def transposeS : UGraph α → List α → α → Option (UGraph α)
  | (key, row) :: soFar, neib :: neibs, vertex =>
    if key = neib then (transposeS soFar neibs vertex).map fun t => (key, vertex :: row) :: t
    else (transposeS soFar (neib :: neibs) vertex).map fun t => (key, row) :: t
  | head :: soFar, [], vertex => (transposeS soFar [] vertex).map fun t => head :: t
  | [], [], _ => some []
  | [], _ :: _, _ => none

/-- `s_transpose/4`; the base has an empty row for every vertex. -/
def sTranspose (base : UGraph α) : UGraph α → Option (UGraph α)
  | [] => some base
  | (vertex, neibs) :: graph => (sTranspose base graph).bind fun soFar => transposeS soFar neibs vertex

def transpose (sGraph : UGraph α) : Option (UGraph α) := sTranspose (sGraph.map fun p => (p.1, [])) sGraph

/-- `compose1/4`. -/
def compose1 : List α → UGraph α → List α → List α
  | v1 :: vs1, (v2, n2) :: g2, soFar =>
    match compare v1 v2 with
    | .lt => compose1 vs1 ((v2, n2) :: g2) soFar
    | .gt => compose1 (v1 :: vs1) g2 soFar
    | .eq => compose1 vs1 g2 (ordUnion n2 soFar)
  | _, _, comp => comp
termination_by vs1 g2 => vs1.length + g2.length

/-- `compose/4`. -/
def compose4 : List α → UGraph α → UGraph α → UGraph α
  | [], _, _ => []
  | v :: vs, (vertex, neibs) :: g1, g2 =>
    if v = vertex then (v, compose1 neibs g2 []) :: compose4 vs g1 g2
    else (v, []) :: compose4 vs ((vertex, neibs) :: g1) g2
  | v :: vs, [], g2 => (v, []) :: compose4 vs [] g2

def compose (g1 g2 : UGraph α) : UGraph α := compose4 (ordUnion (vertices g1) (vertices g2)) g1 g2

/-- `warshall/4`. -/
def warshall4 : UGraph α → α → List α → UGraph α
  | (x, neibs) :: g, v, y =>
    if v ∈ neibs then (x, ordUnion neibs y) :: warshall4 g v y else (x, neibs) :: warshall4 g v y
  | [], _, _ => []

/-- `warshall/3`; `memberchk(V-Y, E)` finds the row of the vertex. -/
def warshall : UGraph α → UGraph α → Option (UGraph α)
  | [], closure => some closure
  | (v, _) :: g, e => (Assoc.value v e).bind fun y => warshall g (warshall4 e v y)

def transitiveClosure (graph : UGraph α) : Option (UGraph α) := warshall graph graph

-- ---------------------------------------------------------------------------
-- Transpose
-- ---------------------------------------------------------------------------

/-- The vertex goes in front of the rows of its neighbours. -/
theorem transposeS_eq {t : UGraph α} {neibs : List α} (ht : OrdSet (vertices t)) (hneibs : OrdSet neibs)
    (hin : ∀ n ∈ neibs, n ∈ vertices t) (v : α) :
    transposeS t neibs v = some (t.map fun p => if p.1 ∈ neibs then (p.1, v :: p.2) else p) := by
  induction t generalizing neibs with
  | nil =>
    cases neibs with
    | nil => rfl
    | cons n neibs => exact absurd (hin n List.mem_cons_self) List.not_mem_nil
  | cons p t ih =>
    obtain ⟨key, row⟩ := p
    obtain ⟨hlt, ht'⟩ := List.pairwise_cons.mp ht
    cases neibs with
    | nil =>
      rw [transposeS, ih ht' hneibs (by simp)]
      simp
    | cons n neibs =>
      obtain ⟨hn, hneibs'⟩ := List.pairwise_cons.mp hneibs
      rw [transposeS]
      split_ifs with heq
      · subst heq
        have hin' : ∀ n ∈ neibs, n ∈ vertices t := fun m hm =>
          (List.mem_cons.mp (hin m (List.mem_cons_of_mem _ hm))).resolve_left (hn m hm).ne'
        have hrest : ∀ p ∈ t, (p.1 ∈ key :: neibs ↔ p.1 ∈ neibs) := fun p hp =>
          List.mem_cons.trans (or_iff_right (hlt p.1 (List.mem_map_of_mem (f := Prod.fst) hp)).ne')
        rw [ih ht' hneibs' hin', Option.map_some, List.map_cons, if_pos List.mem_cons_self]
        refine congrArg (fun l => some (_ :: l)) (List.map_congr_left fun p hp => ?_)
        simp only [hrest p hp]
      · have hmem : n ∈ vertices t := (List.mem_cons.mp (hin n List.mem_cons_self)).resolve_left (Ne.symm heq)
        have hbelow : ∀ m ∈ n :: neibs, key < m := List.forall_mem_cons.mpr
          ⟨hlt n hmem, fun m hm => (hlt n hmem).trans (hn m hm)⟩
        have hin' : ∀ m ∈ n :: neibs, m ∈ vertices t := fun m hm =>
          (List.mem_cons.mp (hin m hm)).resolve_left (hbelow m hm).ne'
        rw [ih ht' hneibs hin', Option.map_some, List.map_cons, if_neg fun hk => lt_irrefl _ (hbelow key hk)]

theorem sTranspose_spec (base : UGraph α) {rest : UGraph α} (hbase : OrdSet (vertices base)) (hempty : ∀ p ∈ base, p.2 = [])
    (hrest : OrdSet (vertices rest)) (hneibs : ∀ p ∈ rest, OrdSet p.2)
    (hin : ∀ p ∈ rest, ∀ v ∈ p.2, v ∈ vertices base) :
    ∃ t, sTranspose base rest = some t ∧ vertices t = vertices base ∧ (∀ p ∈ t, OrdSet p.2) ∧
      ∀ u w, Edge t u w ↔ Edge rest w u := by
  induction rest with
  | nil =>
    refine ⟨base, rfl, rfl, fun p hp => by rw [hempty p hp]; exact List.Pairwise.nil, fun u w => ?_⟩
    refine iff_of_false ?_ (edge_nil w u)
    rintro ⟨ns, hns, hw⟩
    obtain rfl : ns = [] := hempty _ hns
    cases hw
  | cons p rest ih =>
    obtain ⟨v, neibs⟩ := p
    obtain ⟨hlt, hrest'⟩ := List.pairwise_cons.mp hrest
    obtain ⟨hn, hneibs'⟩ := List.forall_mem_cons.mp hneibs
    obtain ⟨hv, hin'⟩ := List.forall_mem_cons.mp hin
    obtain ⟨t, heq, hvert, hord, hedge⟩ := ih hrest' hneibs' hin'
    have hsome := transposeS_eq (hvert ▸ hbase) hn (fun n hn => hvert ▸ hv n hn) v
    refine ⟨_, by rw [sTranspose, heq]; exact hsome, ?_, ?_, fun u w => ?_⟩
    · rw [← hvert, vertices, List.map_map]
      refine List.map_congr_left fun p _ => ?_
      rw [Function.comp_apply]
      split <;> rfl
    · intro q hq
      obtain ⟨p, hp, rfl⟩ := List.mem_map.mp hq
      split_ifs
      · refine List.pairwise_cons.mpr ⟨fun x hx => ?_, hord p hp⟩
        exact hlt x ((hedge p.1 x).mp ⟨p.2, hp, hx⟩).source
      · exact hord p hp
    · rw [edge_cons, ← hedge]
      constructor
      · rintro ⟨ns, hns, hw⟩
        obtain ⟨p, hp, hpq⟩ := List.mem_map.mp hns
        split_ifs at hpq with hmem
        · cases hpq
          cases List.mem_cons.mp hw with
          | inl heq => exact .inl ⟨heq, hmem⟩
          | inr hw => exact .inr ⟨p.2, hp, hw⟩
        · cases hpq
          exact .inr ⟨_, hp, hw⟩
      · rintro (⟨rfl, hu⟩ | ⟨ns, hns, hw⟩)
        · obtain ⟨p, hp, rfl⟩ := List.mem_map.mp (hvert.symm ▸ hv u hu)
          exact ⟨w :: p.2, List.mem_map.mpr ⟨p, hp, if_pos hu⟩, List.mem_cons_self⟩
        · by_cases hu : u ∈ neibs
          · exact ⟨v :: ns, List.mem_map.mpr ⟨_, hns, if_pos hu⟩, List.mem_cons_of_mem _ hw⟩
          · exact ⟨ns, List.mem_map.mpr ⟨_, hns, if_neg hu⟩, hw⟩

theorem transpose_represents {g : UGraph α} (h : Wf g) :
    ∃ t, transpose g = some t ∧ Represents t (· ∈ vertices g) fun u v => Edge g v u := by
  have hvert : vertices (g.map fun p => (p.1, ([] : List α))) = vertices g := by
    rw [vertices, List.map_map]
    rfl
  obtain ⟨t, heq, hv, hord, hedge⟩ := sTranspose_spec (g.map fun p => (p.1, [])) (hvert ▸ h.vertices)
    (by simp) h.vertices h.neighbours fun p hp v hv => hvert ▸ h.inside p hp v hv
  rw [hvert] at hv
  refine ⟨t, heq, wf_of_edges (hv ▸ h.vertices) hord fun u v he => ?_, fun v => by rw [hv], hedge⟩
  rw [hv]
  exact ((hedge u v).mp he).source

-- ---------------------------------------------------------------------------
-- Composition
-- ---------------------------------------------------------------------------

/-- The rows of some vertices of the second graph. -/
theorem compose1_spec {vs soFar : List α} {g2 : UGraph α} (hvs : OrdSet vs) (hg : OrdSet (vertices g2))
    (hrows : ∀ p ∈ g2, OrdSet p.2) (hsoFar : OrdSet soFar) :
    OrdSet (compose1 vs g2 soFar) ∧
      ∀ x, x ∈ compose1 vs g2 soFar ↔ x ∈ soFar ∨ ∃ v ∈ vs, Edge g2 v x := by
  induction vs, g2, soFar using compose1.induct with
  | case1 v1 vs1 v2 n2 g2 soFar hlt ih =>
    obtain ⟨-, hvs'⟩ := List.pairwise_cons.mp hvs
    have hbelow := compare_lt_iff_lt.mp hlt
    have hnone : ∀ x, ¬ Edge ((v2, n2) :: g2) v1 x := fun x he =>
      (List.mem_cons.mp he.source).elim hbelow.ne fun hmem =>
        hbelow.asymm ((List.pairwise_cons.mp hg).1 v1 hmem)
    obtain ⟨hord, hmem⟩ := ih hvs' hg hrows hsoFar
    rw [compose1, hlt]
    refine ⟨hord, fun x => (hmem x).trans (or_congr_right ?_)⟩
    simp [hnone]
  | case2 v1 vs1 v2 n2 g2 soFar hgt ih =>
    obtain ⟨-, hg'⟩ := List.pairwise_cons.mp hg
    obtain ⟨-, hrows'⟩ := List.forall_mem_cons.mp hrows
    have habove : ∀ v ∈ v1 :: vs1, v2 < v := List.forall_mem_cons.mpr ⟨compare_gt_iff_gt.mp hgt,
      fun v hv => (compare_gt_iff_gt.mp hgt).trans ((List.pairwise_cons.mp hvs).1 v hv)⟩
    obtain ⟨hord, hmem⟩ := ih hvs hg' hrows' hsoFar
    rw [compose1, hgt]
    have hother : ∀ v ∈ v1 :: vs1, ∀ x, Edge ((v2, n2) :: g2) v x ↔ Edge g2 v x := fun v hv x =>
      edge_cons.trans (or_iff_right fun h => (habove v hv).ne' h.1)
    refine ⟨hord, fun x => (hmem x).trans (or_congr_right ?_)⟩
    exact exists_congr fun v => and_congr_right fun hv => (hother v hv x).symm
  | case3 v1 vs1 v2 n2 g2 soFar heq ih =>
    obtain ⟨hlt, hvs'⟩ := List.pairwise_cons.mp hvs
    obtain ⟨hfirst, hg'⟩ := List.pairwise_cons.mp hg
    obtain ⟨hn2, hrows'⟩ := List.forall_mem_cons.mp hrows
    obtain rfl := compare_eq_iff_eq.mp heq
    have hnone : ∀ x, ¬ Edge g2 v1 x := fun x he => lt_irrefl _ (hfirst v1 he.source)
    have hother : ∀ v ∈ vs1, ∀ x, Edge ((v1, n2) :: g2) v x ↔ Edge g2 v x := fun v hv x =>
      edge_cons.trans (or_iff_right fun h => (hlt v hv).ne' h.1)
    obtain ⟨hord, hmem⟩ := ih hvs' hg' hrows' (ordSet_ordUnion hn2 hsoFar)
    rw [compose1, heq]
    refine ⟨hord, fun x => (hmem x).trans ?_⟩
    simp only [mem_ordUnion, List.mem_cons, exists_eq_or_imp, edge_cons (u := v1), hnone, or_false, true_and]
    have hrest : (∃ v ∈ vs1, Edge ((v1, n2) :: g2) v x) ↔ ∃ v ∈ vs1, Edge g2 v x :=
      exists_congr fun v => and_congr_right fun hv => hother v hv x
    rw [hrest]
    tauto
  | case4 vs g2 soFar hne =>
    rw [compose1]
    · refine ⟨hsoFar, fun x => (or_iff_left ?_).symm⟩
      rintro ⟨v, hv, he⟩
      cases vs with
      | nil => cases hv
      | cons v1 vs1 =>
        cases g2 with
        | nil => exact edge_nil v x he
        | cons p g2 => exact hne v1 vs1 p.1 p.2 g2 rfl rfl
    · exact hne

theorem compose4_spec {vs : List α} {g1 g2 : UGraph α} (hvs : OrdSet vs) (hg1 : OrdSet (vertices g1))
    (hsub : ∀ v ∈ vertices g1, v ∈ vs) (hrows1 : ∀ p ∈ g1, OrdSet p.2) (hg2 : OrdSet (vertices g2))
    (hrows2 : ∀ p ∈ g2, OrdSet p.2) :
    vertices (compose4 vs g1 g2) = vs ∧ (∀ p ∈ compose4 vs g1 g2, OrdSet p.2) ∧
      ∀ u w, Edge (compose4 vs g1 g2) u w ↔ ∃ c, Edge g1 u c ∧ Edge g2 c w := by
  induction vs, g1, g2 using compose4.induct with
  | case1 g1 g2 =>
    cases g1 with
    | nil => exact ⟨by rw [compose4]; rfl, by simp [compose4], by simp [compose4]⟩
    | cons p g1 => exact absurd (hsub p.1 List.mem_cons_self) List.not_mem_nil
  | case2 vs v neibs g1 g2 ih =>
    obtain ⟨-, hvs'⟩ := List.pairwise_cons.mp hvs
    obtain ⟨hfirst, hg1'⟩ := List.pairwise_cons.mp hg1
    obtain ⟨hn, hrows1'⟩ := List.forall_mem_cons.mp hrows1
    have hsub' : ∀ w ∈ vertices g1, w ∈ vs := fun w hw =>
      (List.mem_cons.mp (hsub w (List.mem_cons_of_mem _ hw))).resolve_left (hfirst w hw).ne'
    obtain ⟨hvert, hord, hedge⟩ := ih hvs' hg1' hsub' hrows1' hg2 hrows2
    obtain ⟨hnew, hmem⟩ := compose1_spec hn hg2 hrows2 List.Pairwise.nil
    rw [compose4, if_pos rfl]
    refine ⟨by rw [vertices_cons, hvert], List.forall_mem_cons.mpr ⟨hnew, hord⟩, fun u w => ?_⟩
    simp only [edge_cons, hmem, hedge, List.not_mem_nil, false_or, or_and_right, exists_or]
    refine or_congr_left ⟨?_, ?_⟩
    · rintro ⟨hu, c, hc, he⟩
      exact ⟨c, ⟨hu, hc⟩, he⟩
    · rintro ⟨c, ⟨hu, hc⟩, he⟩
      exact ⟨hu, c, hc, he⟩
  | case3 v vs vertex neibs g1 g2 hne ih =>
    obtain ⟨hlt, hvs'⟩ := List.pairwise_cons.mp hvs
    have hmem : vertex ∈ vs := (List.mem_cons.mp (hsub vertex List.mem_cons_self)).resolve_left (Ne.symm hne)
    have habove : ∀ w ∈ vertices ((vertex, neibs) :: g1), v < w := List.forall_mem_cons.mpr ⟨hlt _ hmem,
      fun w hw => (hlt _ hmem).trans ((List.pairwise_cons.mp hg1).1 w hw)⟩
    have hsub' : ∀ w ∈ vertices ((vertex, neibs) :: g1), w ∈ vs := fun w hw =>
      (List.mem_cons.mp (hsub w hw)).resolve_left (habove w hw).ne'
    obtain ⟨hvert, hord, hedge⟩ := ih hvs' hg1 hsub' hrows1 hg2 hrows2
    rw [compose4, if_neg hne]
    refine ⟨by rw [vertices_cons, hvert], List.forall_mem_cons.mpr ⟨List.Pairwise.nil, hord⟩, fun u w => ?_⟩
    rw [edge_cons, hedge]
    simp
  | case4 v vs g2 ih =>
    obtain ⟨hvert, hord, hedge⟩ := ih (List.pairwise_cons.mp hvs).2 List.Pairwise.nil (by simp) (by simp) hg2 hrows2
    rw [compose4]
    refine ⟨by rw [vertices_cons, hvert], List.forall_mem_cons.mpr ⟨List.Pairwise.nil, hord⟩, fun u w => ?_⟩
    rw [edge_cons, hedge]
    simp

theorem compose_represents {g1 g2 : UGraph α} (h1 : Wf g1) (h2 : Wf g2) :
    Represents (compose g1 g2) (fun v => v ∈ vertices g1 ∨ v ∈ vertices g2)
      fun u w => ∃ c, Edge g1 u c ∧ Edge g2 c w := by
  have hunion := ordSet_ordUnion h1.vertices h2.vertices
  obtain ⟨hvert, hord, hedge⟩ := compose4_spec hunion h1.vertices (fun v hv => mem_ordUnion.mpr (.inl hv))
    h1.neighbours h2.vertices h2.neighbours
  have hv : ∀ v, v ∈ vertices (compose g1 g2) ↔ v ∈ vertices g1 ∨ v ∈ vertices g2 := fun v => by
    rw [compose, hvert, mem_ordUnion]
  refine ⟨wf_of_edges (by rw [compose, hvert]; exact hunion) hord fun u w he => ?_, hv, hedge⟩
  obtain ⟨c, -, hcw⟩ := (hedge u w).mp he
  exact (hv w).mpr (.inr (h2.target hcw))

/-- The transpose reverses the edges, and twice it is the graph again; the composition has the
vertices of both graphs and the edges that go through a vertex of both. -/
theorem transpose_and_compose {g h : UGraph α} (hg : Wf g) (hh : Wf h) :
    (∃ t, transpose g = some t ∧ Represents t (· ∈ vertices g) (fun v u => Edge g u v) ∧ transpose t = some g) ∧
      Represents (compose g h) (fun v => v ∈ vertices g ∨ v ∈ vertices h)
        fun u w => ∃ v, Edge g u v ∧ Edge h v w := by
  obtain ⟨t, ht, hrep⟩ := transpose_represents hg
  obtain ⟨t', ht', hrep'⟩ := transpose_represents hrep.wf
  have hback : Represents t' (· ∈ vertices g) (Edge g) :=
    ⟨hrep'.wf, fun v => (hrep'.vertices v).trans (hrep.vertices v), fun u v => (hrep'.edges u v).trans (hrep.edges v u)⟩
  obtain rfl : t' = g := hback.unique ⟨hg, fun _ => Iff.rfl, fun _ _ => Iff.rfl⟩
  exact ⟨⟨t, ht, hrep, ht'⟩, compose_represents hg hh⟩

theorem wf_line : Wf [((1 : ℕ), [2]), (2, [])] := ⟨by decide, by decide, by decide⟩

theorem transpose_and_compose_line :
    (∃ t, transpose [((1 : ℕ), [2]), (2, [])] = some t ∧
      Represents t (· ∈ vertices [((1 : ℕ), [2]), (2, [])]) (fun v u => Edge [((1 : ℕ), [2]), (2, [])] u v) ∧
        transpose t = some [((1 : ℕ), [2]), (2, [])]) ∧
      Represents (compose [((1 : ℕ), [2]), (2, [])] [((1 : ℕ), [2]), (2, [])])
        (fun v => v ∈ vertices [((1 : ℕ), [2]), (2, [])] ∨ v ∈ vertices [((1 : ℕ), [2]), (2, [])])
        fun u w => ∃ v, Edge [((1 : ℕ), [2]), (2, [])] u v ∧ Edge [((1 : ℕ), [2]), (2, [])] v w :=
  transpose_and_compose wf_line wf_line

-- ---------------------------------------------------------------------------
-- Closure
-- ---------------------------------------------------------------------------

theorem warshall4_nil (v : α) (y : List α) : warshall4 [] v y = [] := rfl

theorem warshall4_cons (p : α × List α) (g : UGraph α) (v : α) (y : List α) :
    warshall4 (p :: g) v y = (p.1, if v ∈ p.2 then ordUnion p.2 y else p.2) :: warshall4 g v y := by
  by_cases hv : v ∈ p.2
  · rw [if_pos hv]
    exact if_pos hv
  · rw [if_neg hv]
    exact if_neg hv

theorem vertices_warshall4 (g : UGraph α) (v : α) (y : List α) : vertices (warshall4 g v y) = vertices g := by
  induction g with
  | nil => rfl
  | cons p g ih =>
    rw [warshall4_cons, vertices_cons, vertices_cons, ih]

theorem edge_warshall4 {g : UGraph α} {v : α} {y : List α} (hg : OrdSet (vertices g)) {u w : α} :
    Edge (warshall4 g v y) u w ↔ Edge g u w ∨ Edge g u v ∧ w ∈ y := by
  induction g with
  | nil => simp [warshall4_nil]
  | cons p g ih =>
    obtain ⟨x, neibs⟩ := p
    obtain ⟨hlt, hg'⟩ := List.pairwise_cons.mp hg
    have hnone : ∀ z, ¬ Edge g x z := fun z he => lt_irrefl _ (hlt x he.source)
    rw [warshall4_cons]
    split_ifs with hv
    · simp only [edge_cons, mem_ordUnion, ih hg']
      by_cases hu : u = x
      · subst hu
        simp [hnone, hv]
      · simp [hu]
    · simp only [edge_cons, ih hg']
      by_cases hu : u = x
      · subst hu
        simp [hnone, hv]
      · simp [hu]

theorem neighbours_warshall4 {g : UGraph α} (v : α) {y : List α} (hg : ∀ p ∈ g, OrdSet p.2) (hy : OrdSet y) :
    ∀ p ∈ warshall4 g v y, OrdSet p.2 := by
  induction g with
  | nil => simp [warshall4_nil]
  | cons p g ih =>
    obtain ⟨hp, hg'⟩ := List.forall_mem_cons.mp hg
    rw [warshall4_cons]
    split_ifs
    · exact List.forall_mem_cons.mpr ⟨ordSet_ordUnion hp hy, ih hg'⟩
    · exact List.forall_mem_cons.mpr ⟨hp, ih hg'⟩

/-- One vertex is a pivot of the relation of edges. -/
theorem warshall4_represents {e : UGraph α} {vertex : α → Prop} {edge : α → α → Prop}
    (h : Represents e vertex edge) {v : α} {y : List α} (hy : Assoc.value v e = some y) :
    Represents (warshall4 e v y) vertex (Closure.pivot edge v) := by
  have hrow := Assoc.mem_of_value hy
  have hv := vertices_warshall4 e v y
  have hedge : ∀ u w, Edge (warshall4 e v y) u w ↔ Closure.pivot edge v u w := fun u w => by
    rw [edge_warshall4 h.wf.vertices, h.wf.mem_row hrow, h.edges, h.edges, h.edges, Closure.pivot]
  refine ⟨wf_of_edges (hv ▸ h.wf.vertices) (neighbours_warshall4 v h.wf.neighbours (h.wf.neighbours _ hrow))
    fun u w he => ?_, fun u => by rw [hv, h.vertices], hedge⟩
  rw [hv]
  cases (hedge u w).mp he with
  | inl he => exact h.wf.target ((h.edges u w).mpr he)
  | inr he => exact h.wf.target ((h.edges v w).mpr he.2)

/-- After the vertices of a list the relation is transitive at each of them. -/
theorem warshall_represents {e : UGraph α} {vertex : α → Prop} {base edge : α → α → Prop}
    (h : Represents e vertex edge) (hbase : ∀ x y, base x y → edge x y)
    (hsound : ∀ x y, edge x y → TransGen base x y) {g : UGraph α} (hg : ∀ v ∈ vertices g, vertex v) :
    ∃ t edge', warshall g e = some t ∧ Represents t vertex edge' ∧ (∀ x y, base x y → edge' x y) ∧
      (∀ x y, edge' x y → TransGen base x y) ∧ (∀ v ∈ vertices g, Closure.TransAt edge' v) ∧
      ∀ v, Closure.TransAt edge v → Closure.TransAt edge' v := by
  induction g generalizing e edge with
  | nil => exact ⟨e, edge, rfl, h, hbase, hsound, by simp, fun _ hv => hv⟩
  | cons p g ih =>
    obtain ⟨hp, hg'⟩ := List.forall_mem_cons.mp hg
    obtain ⟨q, hq, hkey⟩ := List.mem_map.mp ((h.vertices p.1).mpr hp)
    have hy : Assoc.value p.1 e = some q.2 :=
      (Assoc.value_eq_some (sorted_iff.mpr h.wf.vertices)).mpr (hkey ▸ hq)
    obtain ⟨t, edge', heq, ht, hbase', hsound', htrans, hkeep⟩ := ih (warshall4_represents h hy)
      (fun x z hb => .inl (hbase x z hb)) (Closure.pivot_transGen hsound p.1) hg'
    refine ⟨t, edge', ?_, ht, hbase', hsound', ?_, fun v hv => hkeep v (hv.pivot p.1)⟩
    · rw [warshall, hy]
      exact heq
    · exact List.forall_mem_cons.mpr ⟨hkeep p.1 (Closure.transAt_pivot edge p.1), htrans⟩

theorem transitiveClosure_represents {g : UGraph α} (h : Wf g) :
    ∃ t, transitiveClosure g = some t ∧ Represents t (· ∈ vertices g) (TransGen (Edge g)) := by
  obtain ⟨t, edge, heq, ht, hbase, hsound, htrans, -⟩ := @warshall_represents
    α _ g (· ∈ vertices g) (Edge g) (Edge g) ⟨h, fun _ => Iff.rfl, fun _ _ => Iff.rfl⟩
    (fun _ _ he => he) (fun _ _ he => .single he) g fun _ hv => hv
  refine ⟨t, heq, ht.wf, ht.vertices, fun u v => (ht.edges u v).trans ?_⟩
  exact Closure.eq_transGen hbase hsound (fun x y he => htrans x he.source) u v

end Ugraphs

end Yap
