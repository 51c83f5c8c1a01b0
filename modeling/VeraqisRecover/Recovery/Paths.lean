import VeraqisRecover.Analyze.Pipeline
import VeraqisRecover.Zip.SafePath

/-!
# Paths of outputs

`Path::join` and `Path::parent` on paths as text.  The parent of a file put into a directory is
that directory, up to the separators and dots that `std::path` skips.
-/

namespace VeraqisRecover.Recovery.Paths

open ByteString LossyUtf8

/-- `Path::join` -/
def join (dir name : Text) : Text :=
  if name.head? = some '/' then name
  else if dir = [] ∨ dir.getLast? = some '/' then dir ++ name
  else dir ++ '/' :: name

/-- A piece that is no component of its own, unless it comes first. -/
def skipped (piece : Text) : Bool := piece = [] || piece = ['.']

def render (first : Text) (rest : List Text) : Text :=
  if rest = [] ∧ first = [] then ['/'] else List.intercalate ['/'] (first :: rest)

/-- `Path::parent`: the last component goes, and with it what is skipped around it. -/
def parent (path : Text) : Option Text :=
  match path.splitOn '/' with
  | [] => none
  | first :: rest =>
      match rest.rdropWhile skipped with
      | [] => if first = [] then none else some []
      | body => some (render first (body.dropLast.rdropWhile skipped))

/-! ## Components -/

def SameComponents (p q : Text) : Prop := Analyze.pathComponents p = Analyze.pathComponents q

/-- The components of a path, by its pieces. -/
def componentsOf (pieces : List Text) : Bool × Bool × List Text :=
  (decide (pieces.head? = some [] ∧ 1 < pieces.length), pieces.head? = some ['.'],
    pieces.filter (!skipped ·))

theorem head?_eq_slash_iff {path : Text} :
    path.head? = some '/' ↔ (path.splitOn '/').head? = some [] ∧ 1 < (path.splitOn '/').length := by
  cases path with
  | nil => simp [List.splitOn_nil]
  | cons c path =>
      rw [List.head?_cons, List.splitOn_cons_eq_if_modifyHead]
      obtain ⟨first, rest, hsplit⟩ := List.exists_cons_of_ne_nil (List.splitOn_ne_nil '/' path)
      split
      · rename_i hc
        rw [beq_iff_eq.mp hc, hsplit]
        exact iff_of_true rfl ⟨rfl, by simp⟩
      · rename_i hc
        rw [hsplit]
        exact iff_of_false (fun h ↦ hc (beq_iff_eq.mpr (Option.some.inj h))) (by simp)

theorem pathComponents_eq (path : Text) :
    Analyze.pathComponents path = componentsOf (path.splitOn '/') := by
  have hparts : Analyze.pathParts path = (path.splitOn '/').filter (!skipped ·) := by
    refine List.filter_congr fun piece _ ↦ ?_
    simp [skipped]
  rw [Analyze.pathComponents, componentsOf, hparts]
  simp only [Prod.mk.injEq, decide_eq_decide, and_true]
  exact head?_eq_slash_iff

theorem filter_rdropWhile {α : Type} {p : α → Bool} (xs : List α) :
    (xs.rdropWhile p).filter (!p ·) = xs.filter (!p ·) := by
  induction xs using List.reverseRecOn with
  | nil => rfl
  | append_singleton xs x ih =>
      cases hx : p x with
      | true => rw [List.rdropWhile_concat_pos _ _ _ hx, ih, List.filter_append]; simp [hx]
      | false => rw [List.rdropWhile_concat_neg _ _ _ (by simp [hx])]

/-- What is skipped at the end of a path makes no difference to its components. -/
theorem componentsOf_rdropWhile {first : Text} {rest : List Text}
    (h : first = [] → rest ≠ [] ∧ rest.rdropWhile skipped ≠ []) :
    componentsOf (first :: rest.rdropWhile skipped) = componentsOf (first :: rest) := by
  have hroot : (first = [] ∧ 1 < (first :: rest.rdropWhile skipped).length) ↔
      (first = [] ∧ 1 < (first :: rest).length) := by
    refine and_congr_right fun hfirst ↦ ?_
    obtain ⟨hrest, hbody⟩ := h hfirst
    have := List.length_pos_iff.mpr hrest
    have := List.length_pos_iff.mpr hbody
    rw [List.length_cons, List.length_cons]
    omega
  rw [componentsOf, componentsOf]
  simp only [List.head?_cons, Option.some.injEq, Prod.mk.injEq, decide_eq_decide, true_and]
  refine ⟨hroot, ?_⟩
  rw [List.filter_cons, List.filter_cons, filter_rdropWhile]

/-- Rendering the pieces of a path, without what is skipped at its end, keeps its components. -/
theorem pathComponents_render {path first : Text} {rest : List Text} (hne : path ≠ [])
    (hsplit : path.splitOn '/' = first :: rest) :
    Analyze.pathComponents (render first (rest.rdropWhile skipped)) =
      Analyze.pathComponents path := by
  have hrest : first = [] → rest ≠ [] := by
    rintro rfl rfl
    have hwhole : List.intercalate ['/'] (path.splitOn '/') = path := List.intercalate_splitOn '/'
    rw [hsplit] at hwhole
    exact hne hwhole.symm
  rw [pathComponents_eq path, hsplit]
  by_cases hroot : rest.rdropWhile skipped = [] ∧ first = []
  · obtain ⟨hbody, rfl⟩ := hroot
    have hskipped := List.rdropWhile_eq_nil_iff.mp hbody
    have hlength := List.length_pos_iff.mpr (hrest rfl)
    have hfilter : ([] :: rest).filter (!skipped ·) = [] := by
      refine List.filter_eq_nil_iff.mpr fun piece hpiece ↦ ?_
      rcases List.mem_cons.mp hpiece with rfl | hpiece
      · decide
      · rw [hskipped piece hpiece]
        decide
    rw [render, if_pos ⟨hbody, rfl⟩, componentsOf, hfilter]
    simp [Analyze.pathComponents, Analyze.pathParts, hlength]
    decide
  · have hslash : ∀ piece ∈ first :: rest.rdropWhile skipped, '/' ∉ piece := by
      intro piece hpiece
      have hmem : piece ∈ path.splitOn '/' := by
        rw [hsplit]
        exact ((List.rdropWhile_prefix _ _).sublist.cons_cons first).subset hpiece
      exact (Zip.mem_splitOn hmem).1
    rw [render, if_neg hroot, pathComponents_eq,
      List.splitOn_intercalate '/' hslash (List.cons_ne_nil _ _)]
    exact componentsOf_rdropWhile fun hfirst ↦ ⟨hrest hfirst, fun hbody ↦ hroot ⟨hbody, hfirst⟩⟩

/-- The pieces of a file in a directory are those of the directory, and the file's name. -/
theorem splitOn_join {dir name : Text} (hdir : dir ≠ []) (hname : '/' ∉ name) :
    ∃ first rest rest', (join dir name).splitOn '/' = first :: (rest ++ [name]) ∧
      dir.splitOn '/' = first :: rest' ∧ rest'.rdropWhile skipped = rest.rdropWhile skipped := by
  have hrelative : name.head? ≠ some '/' := fun h ↦ hname (List.mem_of_mem_head? h)
  rw [join, if_neg hrelative]
  by_cases hlast : dir.getLast? = some '/'
  · obtain ⟨front, rfl⟩ := List.getLast?_eq_some_iff.mp hlast
    obtain ⟨first, rest, hsplit⟩ := List.exists_cons_of_ne_nil (List.splitOn_ne_nil '/' front)
    refine ⟨first, rest, rest ++ [[]], ?_, ?_, List.rdropWhile_concat_pos _ _ _ rfl⟩
    · rw [if_pos (.inr hlast), List.append_assoc, List.singleton_append,
        List.splitOn_append_cons_self, List.splitOn_eq_singleton hname, hsplit, List.cons_append]
    · rw [List.splitOn_append_cons_self, List.splitOn_nil, hsplit, List.cons_append]
  · obtain ⟨first, rest, hsplit⟩ := List.exists_cons_of_ne_nil (List.splitOn_ne_nil '/' dir)
    refine ⟨first, rest, rest, ?_, hsplit, rfl⟩
    rw [if_neg (not_or.mpr ⟨hdir, hlast⟩), List.splitOn_append_cons_self,
      List.splitOn_eq_singleton hname, hsplit, List.cons_append]

/-- The parent of a file in a directory is the directory, or none is named. -/
theorem parent_join {dir name parentDir : Text} (hname : '/' ∉ name)
    (hproper : skipped name = false) (h : parent (join dir name) = some parentDir)
    (hne : parentDir ≠ []) :
    SameComponents parentDir dir := by
  by_cases hdir : dir = []
  · have hrelative : name.head? ≠ some '/' := fun h ↦ hname (List.mem_of_mem_head? h)
    rw [hdir, join, if_neg hrelative, if_pos (.inl rfl), List.nil_append, parent,
      List.splitOn_eq_singleton hname] at h
    change (if name = [] then none else some []) = some parentDir at h
    split at h
    · cases h
    · exact absurd (Option.some.inj h).symm hne
  · obtain ⟨first, rest, rest', hjoin, hsplit, hsame⟩ := splitOn_join hdir hname
    rw [parent, hjoin] at h
    dsimp only at h
    rw [List.rdropWhile_concat_neg _ _ _ (by rw [hproper]; decide)] at h
    split at h
    · rename_i hnil
      exact absurd hnil (List.append_ne_nil_of_right_ne_nil _ (List.cons_ne_nil _ _))
    · rw [List.dropLast_concat, ← hsame] at h
      rw [← Option.some.inj h]
      exact pathComponents_render hdir hsplit

end VeraqisRecover.Recovery.Paths
