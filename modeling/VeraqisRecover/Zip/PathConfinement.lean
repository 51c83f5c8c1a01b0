import VeraqisRecover.Zip.SafePath

/-!
# Checked paths stay where they are joined

A checked path passes the check again unchanged.  Joined under a directory it
leads to a place below that directory, whatever the directory's own name does.
-/

namespace VeraqisRecover.Zip

open ByteString LossyUtf8

/-! ## Checking twice -/

theorem map_slashes_eq_self {p : Text} (h : '\\' ∉ p) :
    (p.map fun c ↦ if c = '\\' then '/' else c) = p := by
  refine (List.map_congr_left fun c hc ↦ if_neg ?_).trans (List.map_id p)
  rintro rfl
  exact h hc

theorem ne_nil_of_splitOn_ne {p : Text} (h : ∀ part ∈ p.splitOn '/', part ≠ []) : p ≠ [] := by
  rintro rfl
  exact h [] (by simp) rfl

/-- A path that is already clean comes out as it went in. -/
theorem safeRelativePath_eq_self {p : Text} {maxBytes maxDepth : ℕ}
    (hsafe : SafePath { maxPathBytes := maxBytes, maxDepth := maxDepth } p) :
    safeRelativePath p maxBytes maxDepth = some p := by
  have hnonempty : ∀ part ∈ p.splitOn '/', part ≠ [] := fun part hp ↦ (hsafe.components part hp).1
  have hraw : ¬(p = [] ∨ maxBytes < (asBytes p).length ∨ Char.ofNat 0 ∈ p ∨
      p.head? = some '/' ∨ p.head? = some '\\') := by
    rintro (h | h | h | h | h)
    · exact ne_nil_of_splitOn_ne hnonempty h
    · exact absurd hsafe.bytes (not_le.mpr h)
    · exact hsafe.noNul h
    · exact hsafe.relative h
    · exact hsafe.noBackslash (List.mem_of_head? h)
  have hdrive : ¬(asBytes p)[1]? = some (UInt8.ofNat 0x3a) := fun h ↦
    hsafe.noColon (mem_of_mem_asBytes (by decide) (List.mem_of_getElem? h))
  have hfilter : (p.splitOn '/').filter (· ≠ []) = p.splitOn '/' :=
    List.filter_eq_self.mpr fun part hp ↦ decide_eq_true (hnonempty part hp)
  have hany : ¬((p.splitOn '/').any fun part ↦
      part = ['.'] || part = ['.', '.'] || part.contains ':') = true := by
    intro h
    obtain ⟨part, hp, hbad⟩ := List.any_eq_true.mp h
    obtain ⟨-, hdot, hdotdot⟩ := hsafe.components part hp
    have hcolon : ':' ∉ part := fun hc ↦ hsafe.noColon ((mem_splitOn hp).2 _ hc)
    simp [hdot, hdotdot, hcolon] at hbad
  have hparts : ¬(p.splitOn '/' = [] ∨ maxDepth < (p.splitOn '/').length ∨
      (p.splitOn '/').any fun part ↦
        part = ['.'] || part = ['.', '.'] || part.contains ':') := by
    rintro (h | h | h)
    · exact List.splitOn_ne_nil _ _ h
    · exact absurd hsafe.depth (not_le.mpr h)
    · exact hany h
  rw [safeRelativePath, if_neg hraw]
  dsimp only
  rw [map_slashes_eq_self hsafe.noBackslash, if_neg hdrive, hfilter, if_neg hparts,
    List.intercalate_splitOn]

/-! ## Joining

`Path::join` of the standard library on a system whose separator is the slash,
and the place a path leads to from a working directory that is given by its
components from the root. -/

/-- An absolute path replaces the directory; a slash goes between unless one is there. -/
def joinPath (dir p : Text) : Text :=
  if p.head? = some '/' then p
  else if dir = [] ∨ dir.getLast? = some '/' then dir ++ p
  else dir ++ '/' :: p

def enter (here : List Text) (part : Text) : List Text :=
  if part = [] ∨ part = ['.'] then here
  else if part = ['.', '.'] then here.dropLast
  else here ++ [part]

/-- Where the path leads from the directory `cwd`; above the root there is only the root. -/
def resolve (cwd : List Text) (p : Text) : List Text :=
  (p.splitOn '/').foldl enter (if p.head? = some '/' then [] else cwd)

theorem foldl_enter_proper {parts : List Text} (h : ∀ part ∈ parts, part ≠ [] ∧ part ≠ ['.'] ∧
    part ≠ ['.', '.']) (here : List Text) : parts.foldl enter here = here ++ parts := by
  induction parts generalizing here with
  | nil => exact (List.append_nil here).symm
  | cons part parts ih =>
      obtain ⟨hne, hdot, hdotdot⟩ := h part List.mem_cons_self
      have hstep : enter here part = here ++ [part] := by simp [enter, hne, hdot, hdotdot]
      rw [List.foldl_cons, hstep, ih fun q hq ↦ h q (List.mem_cons_of_mem part hq),
        List.append_assoc]
      rfl

/-- Behind a slash the walk goes on from where the part before it leads. -/
theorem resolve_append_slash (cwd : List Text) {dir : Text} (hdir : dir ≠ []) (p : Text) :
    resolve cwd (dir ++ '/' :: p) = (p.splitOn '/').foldl enter (resolve cwd dir) := by
  have hhead : (dir ++ '/' :: p).head? = dir.head? := by
    obtain ⟨c, rest, rfl⟩ := List.exists_cons_of_ne_nil hdir
    rfl
  rw [resolve, List.splitOn_append_cons_self, List.foldl_append, hhead]
  rfl

theorem resolve_slash (cwd : List Text) (p : Text) :
    resolve cwd ('/' :: p) = (p.splitOn '/').foldl enter [] := by
  have hsplit : ('/' :: p).splitOn '/' = [] :: p.splitOn '/' :=
    List.splitOn_append_cons_self [] p
  rw [resolve, hsplit]
  rfl

/-- A trailing slash leads nowhere else. -/
theorem resolve_joinPath (cwd : List Text) (dir : Text) {p : Text} (h : p.head? ≠ some '/') :
    resolve cwd (joinPath dir p) = (p.splitOn '/').foldl enter (resolve cwd dir) := by
  rw [joinPath, if_neg h]
  by_cases hempty : dir = []
  · rw [hempty, if_pos (.inl rfl), List.nil_append, resolve, if_neg h]
    rfl
  by_cases hslash : dir.getLast? = some '/'
  · obtain ⟨front, rfl⟩ := List.getLast?_eq_some_iff.mp hslash
    have hsplit : ([] : Text).splitOn '/' = [[]] := rfl
    rw [if_pos (.inr hslash), List.append_assoc]
    cases front with
    | nil =>
        change resolve cwd ('/' :: p) = (p.splitOn '/').foldl enter (resolve cwd ['/'])
        rw [resolve_slash, resolve_slash, hsplit]
        rfl
    | cons c rest =>
        have hne : c :: rest ≠ [] := List.cons_ne_nil c rest
        change resolve cwd ((c :: rest) ++ '/' :: p) = _
        rw [resolve_append_slash cwd hne, resolve_append_slash cwd hne [], hsplit]
        rfl
  · rw [if_neg (not_or.mpr ⟨hempty, hslash⟩), resolve_append_slash cwd hempty]

/-- Below the directory: its own components, then those of the path. -/
theorem SafePath.resolve_joinPath {limits : MobileZipLimits} {p : Text} (h : SafePath limits p)
    (cwd : List Text) (dir : Text) :
    resolve cwd (joinPath dir p) = resolve cwd dir ++ p.splitOn '/' := by
  rw [Zip.resolve_joinPath cwd dir h.relative, foldl_enter_proper h.components]

/-- What the check returns is within both limits, is a relative path of proper components, passes
the check again unchanged, and leads below every directory it is joined to. -/
theorem safeRelativePath_confined {raw p : Text} {maxBytes maxDepth : ℕ}
    (h : safeRelativePath raw maxBytes maxDepth = some p) :
    (asBytes p).length ≤ maxBytes ∧ (p.splitOn '/').length ≤ maxDepth ∧
      (∀ part ∈ p.splitOn '/', part ≠ [] ∧ part ≠ ['.'] ∧ part ≠ ['.', '.']) ∧
      Char.ofNat 0 ∉ p ∧ '\\' ∉ p ∧ ':' ∉ p ∧ p.head? ≠ some '/' ∧
      safeRelativePath p maxBytes maxDepth = some p ∧
      ∀ cwd dir, resolve cwd (joinPath dir p) = resolve cwd dir ++ p.splitOn '/' := by
  have hsafe : SafePath { maxPathBytes := maxBytes, maxDepth := maxDepth } p :=
    safeRelativePath_safe h
  exact ⟨hsafe.bytes, hsafe.depth, hsafe.components, hsafe.noNul, hsafe.noBackslash,
    hsafe.noColon, hsafe.relative, safeRelativePath_eq_self hsafe, hsafe.resolve_joinPath⟩

/-- Mixed separators, two of them in a row, and one at the end. -/
theorem mixedSeparators_confined :
    safeRelativePath ['a', '/', 'b'] 5 2 = some ['a', '/', 'b'] ∧
      resolve [['w']] (joinPath ['.', '.', '/', 'd', '/'] ['a', '/', 'b']) =
        [['d'], ['a'], ['b']] := by
  have hraw : safeRelativePath ['a', '\\', '/', 'b', '\\'] 5 2 = some ['a', '/', 'b'] := by
    decide
  obtain ⟨-, -, -, -, -, -, -, hagain, hplace⟩ := safeRelativePath_confined hraw
  refine ⟨hagain, (hplace _ _).trans ?_⟩
  decide

end VeraqisRecover.Zip
