import Mathlib.Data.List.Basic
import Mathlib.Logic.Function.Basic

/-!
# A file system, as a program calls it

Links let a write under one path change what is read under another.  Canonical
paths tell whether it can: two paths that resolve to different ones name
different files.
-/

/-- The calls on a file system in states `σ`, with paths `ρ` and contents `δ`.  A call that fails
may have done a part of its work. -/
structure FileSystem (σ ρ δ : Type) where
  /-- The path behind all links, of what exists. -/
  canonicalize : σ → ρ → Option ρ
  read : σ → ρ → Except String δ
  createDirAll : σ → ρ → σ × Except String Unit
  write : σ → ρ → δ → σ × Except String Unit

namespace FileSystem

variable {σ ρ δ : Type} {fs : FileSystem σ ρ δ} {s : σ} {p q : ρ} {d : δ}

/-- In the state `s` the two paths lead to one file. -/
def SameFile (fs : FileSystem σ ρ δ) (s : σ) (p q : ρ) : Prop :=
  ∃ c, fs.canonicalize s p = some c ∧ fs.canonicalize s q = some c

/-- What is documented of the calls, for regular files of one canonical path each (no hard links)
that nothing else writes.  Paths are `Alike` where they have the same components. -/
structure Lawful (fs : FileSystem σ ρ δ) (Alike : ρ → ρ → Prop) : Prop where
  canonicalize_of_read : ∀ {s p d}, fs.read s p = .ok d → ∃ c, fs.canonicalize s p = some c
  read_createDirAll : ∀ {s p d} q, fs.read s p = .ok d → fs.read (fs.createDirAll s q).1 p = .ok d
  /-- Once made, a directory is there and is left alone. -/
  createDirAll_again : ∀ {s p q s'}, fs.createDirAll s p = (s', .ok ()) → Alike p q →
    fs.createDirAll s' q = (s', .ok ())
  /-- Whether or not it fails, a write touches nothing but what its path leads to. -/
  read_write : ∀ {s p q d} e, fs.read s p = .ok d → ¬ fs.SameFile s q p →
    fs.read (fs.write s q e).1 p = .ok d
  read_write_self : ∀ {s p d s'}, fs.write s p d = (s', .ok ()) → fs.read s' p = .ok d

/-! ## Directories and links -/

/-- A step of a path: up to the parent, or into what has the name. -/
inductive Step (ν : Type) where
  | up
  | into (name : ν)

inductive Node (ν δ : Type) where
  | dir
  | file (contents : δ)
  | link (target : List (Step ν))

/-- A place by the names that lead to it, the innermost first. -/
abbrev Place (ν : Type) := List ν

abbrev Disk (ν δ : Type) := Place ν → Option (Node ν δ)

namespace Disk

variable {ν : Type} {s s' : Disk ν δ} {here c : Place ν} {ps : List (Step ν)}

def isDir : Option (Node ν δ) → Bool
  | some .dir => true
  | _ => false

theorem isDir_iff {x : Option (Node ν δ)} : isDir x = true ↔ x = some .dir := by
  constructor
  · intro h
    match x, h with
    | some .dir, _ => rfl
  · rintro rfl
    rfl

/-- The place a path leads to, behind all links.  Its last name need not be there.  The number
bounds the steps. -/
def locate (s : Disk ν δ) : ℕ → Place ν → List (Step ν) → Option (Place ν)
  | 0, _, _ => none
  | _ + 1, here, [] => some here
  | k + 1, here, .up :: rest => locate s k here.tail rest
  | k + 1, here, .into name :: rest =>
      match s (name :: here) with
      | some .dir => locate s k (name :: here) rest
      | some (.link target) =>
          (locate s k here target).bind fun c ↦
            if rest.isEmpty then some c else if isDir (s c) then locate s k c rest else none
      | some (.file _) | none => if rest.isEmpty then some (name :: here) else none

/-- What was there is there as before. -/
def Extends (s s' : Disk ν δ) : Prop := ∀ c x, s c = some x → s' c = some x

/-- What was there is there, and of the same kind. -/
structure Keeps (s s' : Disk ν δ) : Prop where
  dir : ∀ {c}, s c = some .dir → s' c = some .dir
  link : ∀ {c target}, s c = some (.link target) → s' c = some (.link target)
  file : ∀ {c d}, s c = some (.file d) → ∃ e, s' c = some (.file e)

theorem Extends.keeps (h : Extends s s') : Keeps s s' where
  dir hc := h _ _ hc
  link hc := h _ _ hc
  file hc := ⟨_, h _ _ hc⟩

/-- A path leads where it led, as long as no directory or link has appeared there. -/
theorem locate_of_keeps (hkeeps : Keeps s s') {k : ℕ} (h : locate s k here ps = some c)
    (hc : s c = none → ∃ d, s' c = some (.file d)) : locate s' k here ps = some c := by
  induction k generalizing here ps c with
  | zero => cases h
  | succ k ih =>
      match ps, h with
      | [], h => exact h
      | .up :: rest, h => exact ih (show locate s k here.tail rest = some c from h) hc
      | .into name :: rest, h =>
          unfold locate at h ⊢
          cases hnode : s (name :: here) with
          | none =>
              rw [hnode] at h
              dsimp only at h
              split at h
              · rename_i hlast
                obtain rfl := Option.some.inj h
                obtain ⟨d, hfile⟩ := hc hnode
                rw [hfile]
                exact if_pos hlast
              · cases h
          | some node =>
              rw [hnode] at h
              cases node with
              | dir =>
                  rw [hkeeps.dir hnode]
                  exact ih h hc
              | file d =>
                  obtain ⟨e, hfile⟩ := hkeeps.file hnode
                  rw [hfile]
                  exact h
              | link target =>
                  rw [hkeeps.link hnode]
                  obtain ⟨c₁, htarget, h⟩ := Option.bind_eq_some_iff.mp h
                  refine Option.bind_eq_some_iff.mpr ⟨c₁, ?_⟩
                  split at h
                  · rename_i hlast
                    obtain rfl := Option.some.inj h
                    exact ⟨ih htarget hc, if_pos hlast⟩
                  · rename_i hlast
                    split at h
                    · rename_i hdir
                      have hdir := isDir_iff.mp hdir
                      rw [if_neg hlast, if_pos (isDir_iff.mpr (hkeeps.dir hdir))]
                      exact ⟨ih htarget fun hnone ↦ absurd (hdir.symm.trans hnone) nofun, ih h hc⟩
                    · cases h

variable [DecidableEq ν]

/-- Make what is missing of the directories on the way. -/
def mkdirs : ℕ → Disk ν δ → Place ν → List (Step ν) → Disk ν δ × Except String Unit
  | 0, s, _, _ => (s, .error "File name too long (os error 36)")
  | _ + 1, s, _, [] => (s, .ok ())
  | k + 1, s, here, .up :: rest => mkdirs k s here.tail rest
  | k + 1, s, here, .into name :: rest =>
      match s (name :: here) with
      | none => mkdirs k (Function.update s (name :: here) (some .dir)) (name :: here) rest
      | some .dir => mkdirs k s (name :: here) rest
      | some (.file _) => (s, .error "Not a directory (os error 20)")
      | some (.link target) =>
          match locate s k here target with
          | none => (s, .error "No such file or directory (os error 2)")
          | some c =>
              if isDir (s c) then mkdirs k s c rest else (s, .error "File exists (os error 17)")

theorem extends_update (h : s c = none) (x : Node ν δ) :
    Extends s (Function.update s c (some x)) := by
  intro c' y hy
  have hne : c' ≠ c := by
    rintro rfl
    cases h.symm.trans hy
  rw [Function.update_of_ne hne, hy]

theorem extends_mkdirs (k : ℕ) (s : Disk ν δ) (here : Place ν) (ps : List (Step ν)) :
    Extends s (mkdirs k s here ps).1 := by
  induction k generalizing s here ps with
  | zero => exact fun _ _ h ↦ h
  | succ k ih =>
      match ps with
      | [] => exact fun _ _ h ↦ h
      | .up :: rest => exact ih s here.tail rest
      | .into name :: rest =>
          unfold mkdirs
          split
          · rename_i hnode
            exact fun c x hx ↦ ih _ _ rest c x (extends_update hnode _ c x hx)
          · exact ih s (name :: here) rest
          · exact fun _ _ h ↦ h
          · split
            · exact fun _ _ h ↦ h
            · split
              · exact ih s _ rest
              · exact fun _ _ h ↦ h

theorem extends_of_mkdirs {k : ℕ} {r : Except String Unit} (h : mkdirs k s here ps = (s', r)) :
    Extends s s' := by
  have hmore := extends_mkdirs k s here ps
  rwa [h] at hmore

theorem mkdirs_again {k : ℕ} (h : mkdirs k s here ps = (s', .ok ())) :
    mkdirs k s' here ps = (s', .ok ()) := by
  have hmore := extends_of_mkdirs h
  induction k generalizing s here ps with
  | zero => cases (Prod.mk.inj h).2
  | succ k ih =>
      match ps, h with
      | [], _ => rfl
      | .up :: rest, h => exact ih (show mkdirs k s here.tail rest = (s', .ok ()) from h) hmore
      | .into name :: rest, h =>
          unfold mkdirs at h ⊢
          cases hnode : s (name :: here) with
          | none =>
              rw [hnode] at h
              have hnext : mkdirs k _ (name :: here) rest = (s', .ok ()) := h
              rw [extends_of_mkdirs hnext _ _ (Function.update_self ..)]
              exact ih hnext (extends_of_mkdirs hnext)
          | some node =>
              rw [hnode] at h
              rw [hmore _ _ hnode]
              cases node with
              | dir => exact ih h hmore
              | file d => cases (Prod.mk.inj h).2
              | link target =>
                  dsimp only at h ⊢
                  split at h
                  · cases (Prod.mk.inj h).2
                  · rename_i c htarget
                    split at h
                    · rename_i hdir
                      have hdir := isDir_iff.mp hdir
                      rw [locate_of_keeps hmore.keeps htarget
                        fun hnone ↦ absurd (hdir.symm.trans hnone) nofun]
                      dsimp only
                      rw [if_pos (isDir_iff.mpr (hmore _ _ hdir))]
                      exact ih h hmore
                    · cases (Prod.mk.inj h).2

/-- The calls on a disk: `steps` bounds the way a path takes, `stepsOf` reads a path, and `spell`
writes the canonical one of a place. -/
def fileSystem (steps : ℕ) (stepsOf : ρ → List (Step ν)) (spell : Place ν → ρ) :
    FileSystem (Disk ν δ) ρ δ where
  canonicalize s p := ((locate s steps [] (stepsOf p)).filter fun c ↦ (s c).isSome).map spell
  read s p :=
    match (locate s steps [] (stepsOf p)).bind s with
    | some (.file d) => .ok d
    | some _ => .error "Is a directory (os error 21)"
    | none => .error "No such file or directory (os error 2)"
  createDirAll s p := mkdirs steps s [] (stepsOf p)
  write s p d :=
    match locate s steps [] (stepsOf p) with
    | none => (s, .error "No such file or directory (os error 2)")
    | some c =>
        match s c with
        | none | some (.file _) => (Function.update s c (some (.file d)), .ok ())
        | some _ => (s, .error "Is a directory (os error 21)")

variable {steps : ℕ} {stepsOf : ρ → List (Step ν)} {spell : Place ν → ρ}

theorem read_eq_ok : (fileSystem steps stepsOf spell).read s p = .ok d ↔
    ∃ c, locate s steps [] (stepsOf p) = some c ∧ s c = some (.file d) := by
  rw [← Option.bind_eq_some_iff]
  unfold fileSystem
  dsimp only
  split
  · rename_i e he
    rw [he]
    simp
  · rename_i x hfile hx
    rw [hx]
    exact iff_of_false nofun fun h ↦ hfile d (Option.some.inj h)
  · rename_i hx
    rw [hx]
    exact iff_of_false nofun nofun

theorem canonicalize_of_locate {x : Node ν δ} (h : locate s steps [] (stepsOf p) = some c)
    (hc : s c = some x) : (fileSystem steps stepsOf spell).canonicalize s p = some (spell c) := by
  unfold fileSystem
  dsimp only
  rw [h, Option.filter_some_pos (by rw [hc]; rfl), Option.map_some]

/-- What a write may have done: nothing, or put the file where its path leads. -/
theorem write_cases {r : Except String Unit}
    (h : (fileSystem steps stepsOf spell).write s p d = (s', r)) :
    (s' = s ∧ r ≠ .ok ()) ∨ ∃ c, locate s steps [] (stepsOf p) = some c ∧
      (∀ x, s c = some x → ∃ e, x = .file e) ∧ s' = Function.update s c (some (.file d)) := by
  unfold fileSystem at h
  dsimp only at h
  split at h
  · obtain ⟨rfl, rfl⟩ := Prod.mk.inj h
    exact .inl ⟨rfl, nofun⟩
  · rename_i c hc
    split at h
    · rename_i hnode
      obtain ⟨rfl, -⟩ := Prod.mk.inj h
      exact .inr ⟨c, hc, fun x hx ↦ absurd (hnode.symm.trans hx) nofun, rfl⟩
    · rename_i e hnode
      obtain ⟨rfl, -⟩ := Prod.mk.inj h
      exact .inr ⟨c, hc, fun x hx ↦ ⟨e, (Option.some.inj (hnode.symm.trans hx)).symm⟩, rfl⟩
    · obtain ⟨rfl, rfl⟩ := Prod.mk.inj h
      exact .inl ⟨rfl, nofun⟩

theorem keeps_update (h : ∀ x, s c = some x → ∃ e, x = .file e) (d : δ) :
    Keeps s (Function.update s c (some (.file d))) := by
  have hother : ∀ {c' x}, s c' = some x → (∀ e, x ≠ .file e) →
      Function.update s c (some (.file d)) c' = some x := by
    intro c' x hx hkind
    rw [Function.update_of_ne, hx]
    rintro rfl
    obtain ⟨e, he⟩ := h _ hx
    exact hkind e he
  refine ⟨fun hc' ↦ hother hc' nofun, fun hc' ↦ hother hc' nofun, fun {c' e} hc' ↦ ?_⟩
  by_cases hc : c' = c
  · exact ⟨d, by rw [hc, Function.update_self]⟩
  · exact ⟨e, by rw [Function.update_of_ne hc, hc']⟩

theorem fileSystem_lawful {Alike : ρ → ρ → Prop}
    (hsteps : ∀ p q, Alike p q → stepsOf p = stepsOf q) :
    (fileSystem steps stepsOf spell : FileSystem (Disk ν δ) ρ δ).Lawful Alike where
  canonicalize_of_read := by
    intro s p d h
    obtain ⟨c, hc, hfile⟩ := read_eq_ok.mp h
    exact ⟨_, canonicalize_of_locate hc hfile⟩
  read_createDirAll := by
    intro s p d q h
    obtain ⟨c, hc, hfile⟩ := read_eq_ok.mp h
    have hmore := extends_mkdirs steps s [] (stepsOf q)
    exact read_eq_ok.mpr ⟨c, locate_of_keeps hmore.keeps hc
      fun hnone ↦ absurd (hfile.symm.trans hnone) nofun, hmore c _ hfile⟩
  createDirAll_again := by
    intro s p q s' h halike
    have hmade : mkdirs steps s [] (stepsOf p) = (s', .ok ()) := h
    rw [hsteps p q halike] at hmade
    exact mkdirs_again hmade
  read_write := by
    intro s p q d e h hapart
    obtain ⟨c, hc, hfile⟩ := read_eq_ok.mp h
    cases hwrite : (fileSystem steps stepsOf spell).write s q e with | mk s' r =>
    rcases write_cases hwrite with ⟨rfl, -⟩ | ⟨c', hc', hnode, rfl⟩
    · exact h
    · have hne : c ≠ c' := by
        rintro rfl
        exact hapart ⟨_, canonicalize_of_locate hc' hfile, canonicalize_of_locate hc hfile⟩
      exact read_eq_ok.mpr ⟨c, locate_of_keeps (keeps_update hnode e) hc
        fun hnone ↦ absurd (hfile.symm.trans hnone) nofun,
        (Function.update_of_ne hne _ _).trans hfile⟩
  read_write_self := by
    intro s p d s' h
    rcases write_cases h with ⟨-, hfailed⟩ | ⟨c, hc, hnode, rfl⟩
    · exact absurd rfl hfailed
    · exact read_eq_ok.mpr ⟨c, locate_of_keeps (keeps_update hnode d) hc
        fun _ ↦ ⟨d, Function.update_self ..⟩, Function.update_self ..⟩

end Disk

end FileSystem
