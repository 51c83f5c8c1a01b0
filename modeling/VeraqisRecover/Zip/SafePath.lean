import VeraqisRecover.Zip.MobileZip

/-!
# Paths that are safe to write

What `safe_relative_path` lets through is a relative path of proper
components, free of the separators and drive marks other systems honour, and
no longer than the name it came from.
-/

namespace VeraqisRecover.Zip

open ByteString LossyUtf8

/-- The path stays below the directory it is written to, on every system, within the limits. -/
structure SafePath (limits : MobileZipLimits) (p : Text) : Prop where
  relative : p.head? ≠ some '/'
  components : ∀ part ∈ p.splitOn '/', part ≠ [] ∧ part ≠ ['.'] ∧ part ≠ ['.', '.']
  noBackslash : '\\' ∉ p
  noNul : Char.ofNat 0 ∉ p
  noColon : ':' ∉ p
  bytes : (asBytes p).length ≤ limits.maxPathBytes
  depth : (p.splitOn '/').length ≤ limits.maxDepth

/-! ## Splitting and joining -/

theorem mem_splitOn {a : Char} {xs part : Text} (h : part ∈ xs.splitOn a) :
    a ∉ part ∧ ∀ c ∈ part, c ∈ xs := by
  induction xs generalizing part with
  | nil =>
      rw [List.splitOn_nil, List.mem_singleton] at h
      simp [h]
  | cons x xs ih =>
      rw [List.splitOn_cons_eq_if_modifyHead] at h
      split at h
      · rcases List.mem_cons.mp h with rfl | h
        · simp
        · exact ⟨(ih h).1, fun c hc ↦ List.mem_cons_of_mem x ((ih h).2 c hc)⟩
      · rename_i hx
        obtain ⟨first, rest, hsplit⟩ := List.exists_cons_of_ne_nil (List.splitOn_ne_nil a xs)
        rw [hsplit, List.modifyHead_cons] at h
        rcases List.mem_cons.mp h with rfl | h
        · obtain ⟨hfirst, hsub⟩ := ih (show first ∈ xs.splitOn a by simp [hsplit])
          refine ⟨?_, fun c hc ↦ ?_⟩
          · rw [List.mem_cons, not_or]
            exact ⟨fun heq ↦ hx (by simp [heq]), hfirst⟩
          · rcases List.mem_cons.mp hc with rfl | hc
            · exact List.mem_cons_self
            · exact List.mem_cons_of_mem x (hsub c hc)
        · obtain ⟨hrest, hsub⟩ := ih (show part ∈ xs.splitOn a by simp [hsplit, h])
          exact ⟨hrest, fun c hc ↦ List.mem_cons_of_mem x (hsub c hc)⟩

theorem mem_intercalate {a c : Char} {parts : List Text} (h : c ∈ List.intercalate [a] parts) :
    c = a ∨ ∃ part ∈ parts, c ∈ part := by
  induction parts with
  | nil => simp at h
  | cons part parts ih =>
      by_cases hnil : parts = []
      · subst hnil
        exact .inr ⟨part, List.mem_cons_self, by simpa using h⟩
      · rw [List.intercalate_cons_of_ne_nil hnil] at h
        simp only [List.mem_append, List.mem_singleton] at h
        rcases h with (h | h) | h
        · exact .inr ⟨part, List.mem_cons_self, h⟩
        · exact .inl h
        · rcases ih h with h | ⟨q, hq, hc⟩
          · exact .inl h
          · exact .inr ⟨q, List.mem_cons_of_mem part hq, hc⟩

/-- Joining with an ASCII separator costs one byte for each part but one. -/
theorem length_asBytes_intercalate {a : Char} (ha : (asBytes [a]).length = 1) {parts : List Text}
    (h : parts ≠ []) : (asBytes (List.intercalate [a] parts)).length + 1 =
      (parts.map fun part ↦ (asBytes part).length + 1).sum := by
  induction parts with
  | nil => exact absurd rfl h
  | cons part parts ih =>
      by_cases hnil : parts = []
      · simp [hnil]
      · rw [List.intercalate_cons_of_ne_nil hnil, asBytes_append, asBytes_append,
          List.length_append, List.length_append, ha, List.map_cons, List.sum_cons, ← ih hnil]
        omega

/-! ## The check -/

theorem length_asBytes_slashes (raw : Text) :
    (asBytes (raw.map fun c ↦ if c = '\\' then '/' else c)).length = (asBytes raw).length := by
  induction raw with
  | nil => rfl
  | cons c raw ih =>
      have hcons : ∀ (d : Char) (t : Text), asBytes (d :: t) = asBytes [d] ++ asBytes t :=
        fun d t ↦ asBytes_append [d] t
      rw [List.map_cons, hcons, hcons c, List.length_append, List.length_append, ih]
      split
      · rename_i hc
        rw [hc]
        rfl
      · rfl

/-- A component that is neither empty nor a dot name, and has no separator, NUL or drive mark. -/
structure ProperComponent (part : Text) : Prop where
  nonempty : part ≠ []
  notDot : part ≠ ['.']
  notDotDot : part ≠ ['.', '.']
  noSlash : '/' ∉ part
  noBackslash : '\\' ∉ part
  noNul : Char.ofNat 0 ∉ part
  noColon : ':' ∉ part

/-- A checked path is its components joined, and dropping the empty ones made it no longer. -/
theorem safeRelativePath_components {raw p : Text} {maxBytes maxDepth : ℕ}
    (h : safeRelativePath raw maxBytes maxDepth = some p) :
    ∃ parts, p = List.intercalate ['/'] parts ∧ parts ≠ [] ∧ parts.length ≤ maxDepth ∧
      (∀ part ∈ parts, ProperComponent part) ∧ (asBytes p).length ≤ maxBytes := by
  unfold safeRelativePath at h
  dsimp only at h
  split at h
  · simp at h
  · rename_i hraw
    split at h
    · simp at h
    · split at h
      · simp at h
      · rename_i hparts
        obtain rfl := Option.some.inj h
        simp only [not_or, not_lt] at hraw hparts
        obtain ⟨-, hbytes, hnul, -, -⟩ := hraw
        obtain ⟨hne, hdepth, hany⟩ := hparts
        refine ⟨_, rfl, hne, hdepth, fun part hp ↦ ?_, ?_⟩
        · obtain ⟨hmem, hnonempty⟩ := List.mem_filter.mp hp
          obtain ⟨hslash, hsub⟩ := mem_splitOn hmem
          simp only [List.any_eq_true, not_exists, not_and, Bool.or_eq_true, not_or,
            decide_eq_true_eq] at hany
          obtain ⟨⟨hdot, hdotdot⟩, hcolon⟩ := hany part hp
          have hchar : ∀ c ∈ part, c ≠ '\\' ∧ c ≠ Char.ofNat 0 := by
            intro c hc
            obtain ⟨d, hd, rfl⟩ := List.mem_map.mp (hsub c hc)
            split
            · decide
            · rename_i hback
              refine ⟨hback, ?_⟩
              rintro rfl
              exact hnul hd
          exact ⟨by simpa using hnonempty, hdot, hdotdot, hslash, fun hc ↦ (hchar _ hc).1 rfl,
            fun hc ↦ (hchar _ hc).2 rfl, by simpa using hcolon⟩
        · have hslash : (asBytes ['/']).length = 1 := rfl
          have hjoined := length_asBytes_intercalate hslash hne
          have hwhole := length_asBytes_intercalate hslash
            (List.splitOn_ne_nil '/' (raw.map fun c ↦ if c = '\\' then '/' else c))
          have hsum := ((List.filter_sublist (p := fun part ↦ decide (part ≠ []))
            (l := (raw.map fun c ↦ if c = '\\' then '/' else c).splitOn '/')).map
              fun part ↦ (asBytes part).length + 1).sum_le_sum (fun _ _ ↦ Nat.zero_le _)
          rw [List.intercalate_splitOn, length_asBytes_slashes] at hwhole
          omega

/-- Proper components joined by slashes contain nothing else. -/
theorem mem_of_mem_components {parts : List Text} {c : Char}
    (h : c ∈ List.intercalate ['/'] parts) (hc : c ≠ '/') : ∃ part ∈ parts, c ∈ part :=
  (mem_intercalate h).resolve_left hc

theorem head?_ne_slash {parts : List Text} (h : ∀ part ∈ parts, ProperComponent part) :
    (List.intercalate ['/'] parts).head? ≠ some '/' := by
  cases parts with
  | nil => simp
  | cons first rest =>
      have hfirst := h first List.mem_cons_self
      obtain ⟨c, t, rfl⟩ := List.exists_cons_of_ne_nil hfirst.nonempty
      have hc : c ≠ '/' := by
        rintro rfl
        exact hfirst.noSlash List.mem_cons_self
      by_cases hrest : rest = []
      · simpa [hrest] using hc
      · rw [List.intercalate_cons_of_ne_nil hrest]
        simpa using hc

theorem safeRelativePath_safe {raw p : Text} {limits : MobileZipLimits}
    (h : safeRelativePath raw limits.maxPathBytes limits.maxDepth = some p) :
    SafePath limits p := by
  obtain ⟨parts, rfl, hne, hdepth, hproper, hbytes⟩ := safeRelativePath_components h
  have hsplit : (List.intercalate ['/'] parts).splitOn '/' = parts :=
    List.splitOn_intercalate '/' (fun part hp ↦ (hproper part hp).noSlash) hne
  refine ⟨head?_ne_slash hproper, ?_, ?_, ?_, ?_, hbytes, by rwa [hsplit]⟩
  · rw [hsplit]
    intro part hp
    exact ⟨(hproper part hp).nonempty, (hproper part hp).notDot, (hproper part hp).notDotDot⟩
  · intro hc
    obtain ⟨part, hp, hmem⟩ := mem_of_mem_components hc (by decide)
    exact (hproper part hp).noBackslash hmem
  · intro hc
    obtain ⟨part, hp, hmem⟩ := mem_of_mem_components hc (by decide)
    exact (hproper part hp).noNul hmem
  · intro hc
    obtain ⟨part, hp, hmem⟩ := mem_of_mem_components hc (by decide)
    exact (hproper part hp).noColon hmem

end VeraqisRecover.Zip
