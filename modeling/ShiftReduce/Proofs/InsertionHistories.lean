import ShiftReduce.Proofs.EdgeOrder
import Mathlib.Data.List.Induction

namespace ShiftReduce
namespace Transitions

section Rows

variable (source : StateId) (edge : Symbol × StateId)
  (rows : List (StateId × List (Symbol × StateId)))

theorem lookup_openRow :
    (openRow source rows).lookup source = some ((rows.lookup source).getD []) := by
  induction rows with
  | nil => simp [openRow]
  | cons row rows ih =>
    obtain ⟨r, edges⟩ := row
    unfold openRow
    by_cases hr : r = source
    · simp [hr]
    · have hr' : (source == r) = false := by simpa using Ne.symm hr
      simpa [hr, hr', List.lookup_cons] using ih

theorem openRow_of_mem (h : source ∈ rows.map Prod.fst) : openRow source rows = rows := by
  induction rows with
  | nil => simp at h
  | cons row rows ih =>
    unfold openRow
    by_cases hr : row.1 = source
    · rw [if_pos hr]
    · have htail : source ∈ rows.map Prod.fst := by
        simpa [Ne.symm hr] using h
      rw [if_neg hr, ih htail]

theorem addEdge_openRow : addEdge source edge (openRow source rows) = addEdge source edge rows := by
  induction rows with
  | nil => simp [openRow, addEdge]
  | cons row rows ih =>
    unfold openRow
    by_cases hr : row.1 = source
    · rw [if_pos hr]
    · simp [hr, addEdge, ih]

theorem sources_addEdge : (addEdge source edge rows).map Prod.fst =
    rows.map Prod.fst ++ if source ∈ rows.map Prod.fst then [] else [source] := by
  induction rows with
  | nil => simp [addEdge]
  | cons row rows ih =>
    unfold addEdge
    by_cases hr : row.1 = source
    · simp [hr]
    · simp only [if_neg hr, List.map_cons, ih, List.mem_cons, Ne.symm hr, false_or,
        List.cons_append]

theorem nodup_sources_addEdge (h : (rows.map Prod.fst).Nodup) :
    ((addEdge source edge rows).map Prod.fst).Nodup := by
  rw [sources_addEdge]
  by_cases hs : source ∈ rows.map Prod.fst
  · rw [if_pos hs, List.append_nil]
    exact h
  · rw [if_neg hs, ← List.concat_eq_append]
    exact h.concat hs

theorem edges_addEdge (size size' : Nat) :
    (edges ⟨addEdge source edge rows, size'⟩).Perm (edges ⟨rows, size⟩ ++ [(source, edge)]) := by
  induction rows with
  | nil => simp [edges, addEdge]
  | cons row rows ih =>
    obtain ⟨r, recorded⟩ := row
    unfold addEdge
    by_cases hr : r = source
    · rw [if_pos hr, hr]
      simp only [edges, List.flatMap_cons, List.map_append, List.map_singleton, List.append_assoc]
      exact List.Perm.append_left _ List.perm_append_comm
    · simp only [edges] at ih
      simp only [if_neg hr, edges, List.flatMap_cons, List.append_assoc]
      exact List.Perm.append_left _ ih

/-- A map whose sources are distinct lists its edges source by source. -/
theorem edges_eq_flatMap (size : Nat) (h : (rows.map Prod.fst).Nodup) :
    edges ⟨rows, size⟩ = (rows.map Prod.fst).flatMap fun s =>
      (edgesFrom ⟨rows, size⟩ s).map fun e => (s, e) := by
  induction rows with
  | nil => simp [edges]
  | cons row rows ih =>
    obtain ⟨r, recorded⟩ := row
    rw [List.map_cons, List.nodup_cons] at h
    have hfirst : edgesFrom ⟨(r, recorded) :: rows, size⟩ r = recorded := by
      simp [edgesFrom]
    have hrest : ∀ s ∈ rows.map Prod.fst,
        edgesFrom ⟨(r, recorded) :: rows, size⟩ s = edgesFrom ⟨rows, size⟩ s := by
      intro s hs
      have hne : (s == r) = false := by
        rw [beq_eq_false_iff_ne]
        intro he
        exact h.1 (he ▸ hs)
      simp [edgesFrom, List.lookup_cons, hne]
    calc
      edges ⟨(r, recorded) :: rows, size⟩
          = recorded.map (fun e => (r, e)) ++ edges ⟨rows, size⟩ := by simp [edges]
      _ = recorded.map (fun e => (r, e)) ++ (rows.map Prod.fst).flatMap fun s =>
            (edgesFrom ⟨(r, recorded) :: rows, size⟩ s).map fun e => (s, e) := by
          rw [ih h.2]
          congr 1
          apply List.flatMap_congr
          intro s hs
          rw [hrest s hs]
      _ = ((r :: rows.map Prod.fst).flatMap fun s =>
            (edgesFrom ⟨(r, recorded) :: rows, size⟩ s).map fun e => (s, e)) := by
          rw [List.flatMap_cons, hfirst]

end Rows

/-- A refused insertion leaves the map as it was, also where it looks for a row to write to. -/
theorem enter_eq (m : Transitions) (source : StateId) (X : Symbol) (target : StateId) :
    m.enter source X target = match m.insert source X target with
      | .ok n => (.ok (), n)
      | .error misuse => (.error misuse, m) := by
  simp only [enter, insert, get?, edgesFrom, lookup_openRow, Option.getD_some, addEdge_openRow]
  cases hX : ((m.rows.lookup source).getD []).lookup X with
  | none => simp
  | some recorded =>
    -- A source with an edge has a row, so that none was opened.
    have hrow : source ∈ m.rows.map Prod.fst := by
      cases hs : m.rows.lookup source with
      | none => simp [hs] at hX
      | some row => exact List.mem_map.mpr ⟨_, mem_of_lookup_eq_some _ _ _ hs, rfl⟩
    simp [openRow_of_mem source m.rows hrow]

/-- A map with the insertions that made it, in their order. -/
structure History where
  map : Transitions
  taken : List (StateId × Symbol × StateId)

namespace History

def start : History := ⟨empty, []⟩

/-- One more insertion, which is noted when it succeeds. -/
def enter (h : History) (edge : StateId × Symbol × StateId) : History :=
  match h.map.enter edge.1 edge.2.1 edge.2.2 with
  | (.ok (), m) => ⟨m, h.taken ++ [edge]⟩
  | (.error _, m) => ⟨m, h.taken⟩

/-- The history of insertions into the empty map. -/
def ofInsertions (insertions : List (StateId × Symbol × StateId)) : History :=
  insertions.foldl enter start

/-- The map shows its history: row by row, in the order of its sources, and in its count. -/
structure Faithful (h : History) : Prop where
  functional : h.map.Functional
  distinct : (h.map.rows.map Prod.fst).Nodup
  once : (h.taken.map fun edge => (edge.1, edge.2.1)).Nodup
  row : ∀ s, h.map.edgesFrom s = (h.taken.filter fun edge => edge.1 = s).map Prod.snd
  sources : h.map.rows.map Prod.fst = (h.taken.map Prod.fst).eraseDups
  listed : h.map.edges.Perm h.taken
  size : h.map.size = h.taken.length

theorem faithful_start : start.Faithful := by
  refine ⟨functional_empty, List.nodup_nil, List.nodup_nil, ?_, rfl, List.Perm.nil, rfl⟩
  intro s
  rw [start, edgesFrom_empty, List.filter_nil, List.map_nil]

namespace Faithful

variable {h : History} (hh : h.Faithful)

include hh in
theorem get?_eq_some_iff (s : StateId) (X : Symbol) (target : StateId) :
    h.map.get? s X = some target ↔ (s, X, target) ∈ h.taken := by
  rw [← mem_edgesFrom_iff h.map hh.functional, hh.row s]
  simp

include hh in
theorem get?_eq_none_iff (s : StateId) (X : Symbol) :
    h.map.get? s X = none ↔ ∀ target, (s, X, target) ∉ h.taken := by
  simp only [Option.eq_none_iff_forall_ne_some, ne_eq, hh.get?_eq_some_iff]

include hh in
theorem insert_eq_error_iff (s : StateId) (X : Symbol) (target : StateId) (misuse : Misuse) :
    h.map.insert s X target = .error misuse ↔
      ∃ recorded, (s, X, recorded) ∈ h.taken ∧ misuse = .transitionRecorded s X recorded := by
  unfold insert
  cases hX : h.map.get? s X with
  | none =>
    have hnone := (hh.get?_eq_none_iff s X).mp hX
    simp [hnone]
  | some recorded =>
    have hmem := (hh.get?_eq_some_iff s X recorded).mp hX
    constructor
    · intro he
      refine ⟨recorded, hmem, ?_⟩
      cases he
      rfl
    · intro ⟨other, hother, he⟩
      have hsame := hX.symm.trans ((hh.get?_eq_some_iff s X other).mpr hother)
      cases hsame
      rw [he]

include hh in
theorem edges_eq : h.map.edges = (h.taken.map Prod.fst).eraseDups.flatMap fun s =>
    h.taken.filter fun edge => edge.1 = s := by
  rw [edges_eq_flatMap h.map.rows h.map.size hh.distinct, hh.sources]
  apply List.flatMap_congr
  intro s _
  rw [hh.row s, List.map_map]
  refine (List.map_congr_left ?_).trans (List.map_id _)
  intro edge hedge
  have hsource : edge.1 = s := by simpa using (List.mem_filter.mp hedge).2
  simp [← hsource]

include hh in
theorem enter (edge : StateId × Symbol × StateId) : (h.enter edge).Faithful := by
  obtain ⟨source, X, target⟩ := edge
  unfold History.enter
  rw [enter_eq]
  cases hm : h.map.insert source X target with
  | error misuse => exact hh
  | ok m =>
    obtain ⟨hnone, hrows⟩ := insert_eq_ok h.map m source X target hm
    have hfresh := (hh.get?_eq_none_iff source X).mp hnone
    refine ⟨functional_insert h.map m source X target hh.functional hm, ?_, ?_, ?_, ?_, ?_, ?_⟩
    · rw [hrows]
      exact nodup_sources_addEdge source (X, target) h.map.rows hh.distinct
    · rw [List.map_append, List.map_singleton, ← List.concat_eq_append]
      apply hh.once.concat
      intro hpair
      obtain ⟨⟨s, Y, recorded⟩, hedge, he⟩ := List.mem_map.mp hpair
      cases he
      exact hfresh recorded hedge
    · intro s
      rw [edgesFrom_insert h.map m source s X target hm, hh.row s, List.filter_append,
        List.map_append]
      by_cases hs : s = source
      · simp [hs]
      · simp [hs, Ne.symm hs]
    · rw [hrows, List.map_append, List.map_singleton, Discovers.eraseDups_append_singleton,
        ← hh.sources, sources_addEdge]
      have hmem : source ∈ h.map.rows.map Prod.fst ↔ source ∈ h.taken.map Prod.fst := by
        rw [hh.sources, List.mem_eraseDups]
      simp only [hmem]
    · rw [hrows]
      exact (edges_addEdge source (X, target) h.map.rows h.map.size _).trans
        (hh.listed.append_right _)
    · rw [hrows, List.length_append, List.length_singleton, hh.size]

end Faithful

theorem faithful_ofInsertions (insertions : List (StateId × Symbol × StateId)) :
    (ofInsertions insertions).Faithful := by
  unfold ofInsertions
  induction insertions using List.reverseRecOn with
  | nil => exact faithful_start
  | append_singleton insertions edge ih =>
    rw [List.foldl_append, List.foldl_cons, List.foldl_nil]
    exact ih.enter edge

end History

/-- A map shows the insertions that succeeded, by source and symbol, row by row, all together and in
number. Any other insertion fails and changes nothing. -/
theorem insertions_exact (insertions : List (StateId × Symbol × StateId)) :
    let h := History.ofInsertions insertions
    (∀ s X target, (∃ misuse, h.map.insert s X target = .error misuse) ↔
      ∃ recorded, (s, X, recorded) ∈ h.taken) ∧
    (∀ s X target misuse, h.map.insert s X target = .error misuse →
      h.map.enter s X target = (.error misuse, h.map) ∧
        ∃ recorded, (s, X, recorded) ∈ h.taken ∧ misuse = .transitionRecorded s X recorded) ∧
    (∀ s X target m, h.map.insert s X target = .ok m → h.map.enter s X target = (.ok (), m)) ∧
    (h.taken.map fun edge => (edge.1, edge.2.1)).Nodup ∧
    (∀ s X target, h.map.get? s X = some target ↔ (s, X, target) ∈ h.taken) ∧
    (∀ s X, h.map.get? s X = none ↔ ∀ target, (s, X, target) ∉ h.taken) ∧
    (∀ s, h.map.edgesFrom s = (h.taken.filter fun edge => edge.1 = s).map Prod.snd) ∧
    h.map.edges = ((h.taken.map Prod.fst).eraseDups.flatMap fun s =>
      h.taken.filter fun edge => edge.1 = s) ∧
    h.map.edges.Perm h.taken ∧
    h.map.size = h.map.edges.length := by
  intro h
  have hh : h.Faithful := History.faithful_ofInsertions insertions
  refine ⟨?_, ?_, ?_, hh.once, hh.get?_eq_some_iff, hh.get?_eq_none_iff, hh.row, hh.edges_eq,
    hh.listed, ?_⟩
  · intro s X target
    simp only [hh.insert_eq_error_iff]
    constructor
    · intro ⟨_, recorded, hmem, _⟩
      exact ⟨recorded, hmem⟩
    · intro ⟨recorded, hmem⟩
      exact ⟨_, recorded, hmem, rfl⟩
  · intro s X target misuse he
    refine ⟨?_, (hh.insert_eq_error_iff s X target misuse).mp he⟩
    rw [enter_eq, he]
  · intro s X target m hm
    rw [enter_eq, hm]
  · rw [hh.size, hh.listed.length_eq]

end Transitions
end ShiftReduce
