import VeraqisRecover.Crc.Detection
import VeraqisRecover.Rar.Abstention
import VeraqisRecover.Support.ByteChange

/-!
# One damaged byte of an archive

A damaged header is never emitted while its size is intact, since the checksum
tells a changed byte.  Its sizes still say where the walk goes on.  The blocks
of the archive therefore report its files whatever the damage is, and what else
is reported comes from headers that the walk meets off these blocks.
-/

namespace VeraqisRecover.Rar

open ByteString LossyUtf8 Reader

/-! ## One block -/

theorem checksum32_eq (d : Bytes) : checksum32 d = (Crc.crc32 d).toNat := by
  rw [checksum32, Crc.checksum_eq, BitVec.toNat_setWidth]
  have hlt := (Crc.crc32 d).isLt
  omega

theorem checksum32_set_ne {d : Bytes} {k : ℕ} {v w : UInt8} (hw : d[k]? = some w) (hv : v ≠ w) :
    checksum32 (d.set k v) ≠ checksum32 d := by
  rw [checksum32_eq, checksum32_eq]
  intro hsame
  exact Crc.crc32_set_ne hw hv (BitVec.eq_of_toNat_eq hsame)

/-- The bytes between the CRC field and the cursor steer; the others touch the verdict alone. -/
theorem readBlock_steered {d e : Bytes} {p : ℕ} {b : Block} (h : readBlock d p = some (some b))
    (hlen : e.length = d.length) (hsame : ∀ i, p + 4 ≤ i → i < b.cursor → e[i]? = d[i]?) :
    ∃ ok, readBlock e p = some (some { b with crcOk := ok }) := by
  obtain ⟨hstart, crc, headerSize, hcrc, hsize, hstop, hle, -, hfields⟩ := readBlock_eq_some h
  obtain ⟨hread, hs, hword⟩ := u32le_eq_some.mp hcrc
  have hinside := le_length_of_u32le hread
  obtain ⟨crc', hread'⟩ := ByteString.u32le_isSome (show p + 4 ≤ e.length by omega)
  have hcrc' : u32le e p = some (crc', b.hsStart) := u32le_eq_some.mpr ⟨hread', hs, hword⟩
  have hbody := vint_framed.le hsize
  have hcursor := blockFields_framed.le hfields
  have hsize' := vint_framed.congr hsize fun i hi hi' ↦ hsame i (by omega) (by omega)
  have hfields' := blockFields_framed.congr hfields fun i hi hi' ↦ hsame i (by omega) hi'
  refine ⟨checksum32 ((e.drop b.hsStart).take (b.bodyEnd - b.hsStart)) == crc', ?_⟩
  simp [readBlock, hcrc', hsize', hstop, hlen, not_lt.mpr hle, hfields', hstart]

/-- The verdict on a header of sound size. -/
theorem crcOk_of_head {d c body data : Bytes} {p crc : ℕ} {b : Block}
    (h : At d p (c ++ (putVint body.length ++ body) ++ data)) (hlen : c.length = 4)
    (hc : ByteString.u32le c 0 = some crc) (hd : d.length ≤ wordMax)
    (hread : readBlock d p = some (some b)) :
    b.crcOk = (checksum32 (putVint body.length ++ body) == crc) := by
  obtain ⟨-, crc', headerSize, hcrc, hsize, -, -, -, hfields⟩ := readBlock_eq_some hread
  obtain ⟨-, hs, -⟩ := u32le_eq_some.mp hcrc
  have hhead := (At.append_iff.mp (At.append_iff.mp h).1).2
  rw [hlen] at hhead
  have hend := hhead.add_length_le (by
    apply List.ne_nil_of_length_pos
    rw [List.length_append]
    exact Nat.add_pos_left (putVint_pos _) _)
  rw [List.length_append] at hend
  have hsize' := vint_putVint (At.append_iff.mp hhead).1 (by
    rw [wordMax] at hd
    omega)
  rw [hs, hsize', Option.some.injEq, Prod.mk.injEq] at hsize
  rw [← hsize.2] at hfields
  have hread' := readBlock_head h hlen hc hd hfields
  rw [hread] at hread'
  exact congrArg Block.crcOk (Option.some.inj (Option.some.inj hread'))

section DamagedHead

variable {d body data : Bytes} {p k : ℕ} {v w : UInt8} {b : Block}

theorem block_set_field (hk : k < 4) : (block body data).set k v =
    (le32 (checksum32 (putVint body.length ++ body))).set k v ++ (putVint body.length ++ body) ++
      data := by
  rw [block, List.append_assoc, List.set_append_left _ _ (by simpa using hk), ← List.append_assoc]

theorem block_set_body (hk : k < body.length) :
    (block body data).set (4 + (putVint body.length).length + k) v =
      le32 (checksum32 (putVint body.length ++ body)) ++ (putVint body.length ++ body.set k v) ++
        data := by
  rw [block, List.append_assoc, List.set_append_right _ _ (by rw [length_le32]; omega), length_le32,
    List.append_assoc, List.set_append_right _ _ (by omega),
    List.set_append_left _ _ (by omega), ← List.append_assoc, ← List.append_assoc,
    List.append_assoc (le32 _)]
  congr 4
  omega

theorem block_set_data : (block body data).set (headLength body + k) v =
    block body (data.set k v) := by
  have hlen : (le32 (checksum32 (putVint body.length ++ body)) ++
      (putVint body.length ++ body)).length = headLength body := by
    rw [headLength, List.length_append, List.length_append, length_le32, Nat.add_assoc]
  rw [block, List.set_append_right _ _ (by omega), hlen, Nat.add_sub_cancel_left]
  rfl

variable (h : At d p (block body data)) (hd : d.length ≤ wordMax) (hv : v ≠ w)

include h hd hv

theorem crcOk_of_damagedField (hk : k < 4) (hw : d[p + k]? = some w)
    (hread : readBlock (d.set (p + k) v) p = some (some b)) : b.crcOk = false := by
  have hlen : 4 ≤ (block body data).length := by
    rw [length_block, headLength]
    omega
  have hbyte : (le32 (checksum32 (putVint body.length ++ body)))[k]? = some w := by
    rw [← hw, h.getElem? (by omega), block, List.append_assoc,
      List.getElem?_append_left (by simpa using hk)]
  have hdamaged := h.set_inside (show k < (block body data).length by omega) v
  rw [block_set_field hk] at hdamaged
  have hfour : ((le32 (checksum32 (putVint body.length ++ body))).set k v).length = 4 := by simp
  obtain ⟨crc, hcrc⟩ := ByteString.u32le_isSome hfour.ge
  rw [crcOk_of_head hdamaged hfour hcrc (by rwa [List.length_set]) hread, beq_eq_false_iff_ne]
  intro hsame
  have hnew : (le32 (checksum32 (putVint body.length ++ body)))[k]? = some v := by
    rw [hsame, ← eq_le32_of_u32le hfour hcrc]
    exact List.getElem?_set_self (by simpa using hk)
  rw [hbyte] at hnew
  exact hv (Option.some.inj hnew).symm

theorem crcOk_of_damagedBody (hk : k < body.length)
    (hw : d[p + (4 + (putVint body.length).length + k)]? = some w)
    (hread : readBlock (d.set (p + (4 + (putVint body.length).length + k)) v) p = some (some b)) :
    b.crcOk = false := by
  have hin : 4 + (putVint body.length).length + k < (block body data).length := by
    rw [length_block, headLength]
    omega
  have hhead : At d (p + 4) (putVint body.length ++ body) := by
    rw [block, At.append_iff, At.append_iff, length_le32] at h
    exact h.1.2
  have hbyte : (putVint body.length ++ body)[(putVint body.length).length + k]? = some w := by
    rw [← hw, ← hhead.getElem? (by rw [List.length_append]; omega)]
    congr 1
    omega
  have hdamaged : At (d.set (p + (4 + (putVint body.length).length + k)) v) p
      (le32 (checksum32 (putVint body.length ++ body)) ++
        (putVint (body.set k v).length ++ body.set k v) ++ data) := by
    rw [List.length_set, ← block_set_body hk]
    exact h.set_inside hin v
  have hset : putVint (body.set k v).length ++ body.set k v =
      (putVint body.length ++ body).set ((putVint body.length).length + k) v := by
    rw [List.length_set, List.set_append_right _ _ (by omega), Nat.add_sub_cancel_left]
  rw [crcOk_of_head hdamaged rfl (u32le_le32_self (checksum32_lt _)) (by rwa [List.length_set])
    hread, beq_eq_false_iff_ne, hset]
  exact checksum32_set_ne hbyte hv

/-- A changed byte of the header is told, if it is not one of the size. -/
theorem crcOk_of_damagedHead (hk : k < headLength body)
    (hout : k < 4 ∨ 4 + (putVint body.length).length ≤ k) (hw : d[p + k]? = some w)
    (hread : readBlock (d.set (p + k) v) p = some (some b)) : b.crcOk = false := by
  rcases hout with hfield | hbehind
  · exact crcOk_of_damagedField h hd hv hfield hw hread
  · obtain ⟨j, rfl⟩ := Nat.exists_eq_add_of_le hbehind
    rw [headLength] at hk
    exact crcOk_of_damagedBody h hd hv (by omega) hw hread

end DamagedHead

/-! ## A file block -/

namespace Member

/-- The byte at `i` is in the header size of the file's block at `p`. -/
def InSize (f : Member) (p i : ℕ) : Prop :=
  p + 4 ≤ i ∧ i < p + 4 + (putVint (fileBody f).length).length

/-- It is in the bytes that say where the walk goes on: header size, type, flags, data size. -/
def InSteering (f : Member) (p i : ℕ) : Prop :=
  p + 4 ≤ i ∧ i < fieldsEnd (p + 4 + (putVint (fileBody f).length).length) f

end Member

section FileBlock

variable {d : Bytes} {p i : ℕ} {f : Member} {v w : UInt8} {b : Block}
  (h : At d p (fileBlock f)) (hd : d.length ≤ wordMax)

include h hd

/-- What the damaged block still reports is its file. -/
theorem entry_damagedBlock (hw : d[i]? = some w) (hv : v ≠ w) (hsize : ¬f.InSize p i)
    (hread : readBlock (d.set i v) p = some (some b)) (hcrc : b.crcOk = true) :
    b.entry (d.set i v) = some (entryFor p f) := by
  have hintact : ∀ data : Bytes, data.length = f.data.length →
      At (d.set i v) p (block (fileBody f) data) → b.entry (d.set i v) = some (entryFor p f) := by
    intro data hlen hat
    obtain ⟨b', hread', -, -, -, hentry, -⟩ :=
      readBlock_fileHead hat hlen (by rwa [List.length_set])
    rw [hread] at hread'
    cases hread'
    exact hentry
  by_cases hapart : i < p ∨ p + (fileBlock f).length ≤ i
  · exact hintact f.data rfl (h.set_apart hapart v)
  · have hlen : (fileBlock f).length = headLength (fileBody f) + f.data.length := length_block _ _
    obtain ⟨k, rfl⟩ := Nat.exists_eq_add_of_le (show p ≤ i by omega)
    by_cases hdata : headLength (fileBody f) ≤ k
    · obtain ⟨j, rfl⟩ := Nat.exists_eq_add_of_le hdata
      apply hintact (f.data.set j v) List.length_set
      rw [← block_set_data]
      exact h.set_inside (by omega) v
    · have hout : k < 4 ∨ 4 + (putVint (fileBody f).length).length ≤ k := by
        by_contra hno
        exact hsize ⟨by omega, by omega⟩
      have hbad := crcOk_of_damagedHead h hd hv (by omega) hout hw hread
      rw [hcrc] at hbad
      cases hbad

/-- Unless a steering byte is damaged, the walk goes on behind the block. -/
theorem hop_damagedBlock (hsteer : ¬f.InSteering p i) :
    hop (d.set i v) p = some (p + (fileBlock f).length) := by
  obtain ⟨b, hread, -, htype, hcursor, -, hnext⟩ := readBlock_fileHead h rfl hd
  have hsame : ∀ k, p + 4 ≤ k → k < b.cursor → (d.set i v)[k]? = d[k]? := by
    intro k hlow hhigh
    apply List.getElem?_set_ne
    rintro rfl
    rw [hcursor] at hhigh
    exact hsteer ⟨hlow, hhigh⟩
  obtain ⟨ok, hread'⟩ := readBlock_steered hread List.length_set hsame
  have hfe : tFile ≠ tEndarc := by decide
  rw [Block.next] at hnext
  simp [hop, hread', Block.next, htype, hfe, hnext]

end FileBlock

/-! ## The end block -/

/-- A header that begins with another size is not one of a file. -/
theorem htype_of_damagedSize {d : Bytes} {p : ℕ} {v : UInt8} {b : Block}
    (hrest : d.drop (p + 4) = [v, 5, 0]) (hread : readBlock d p = some (some b)) :
    b.fields.htype = tEndarc := by
  obtain ⟨-, crc, headerSize, hcrc, hsize, hstop, hle, -, hfields⟩ := readBlock_eq_some hread
  obtain ⟨-, hs, -⟩ := u32le_eq_some.mp hcrc
  have hlen := congrArg List.length hrest
  rw [List.length_drop] at hlen
  rw [hs, vint, hrest, vintLoop] at hsize
  by_cases hlast : v &&& 0x80 = 0
  · rw [if_pos hlast, Option.some.injEq, Prod.mk.injEq] at hsize
    have hdrop : d.drop (p + 4 + 1) = [5, 0] := by
      rw [← List.drop_drop, hrest]
      rfl
    have htype : vint d (p + 4 + 1) = some (tEndarc, p + 4 + 2) := by
      rw [vint, hdrop]
      rfl
    rw [← hsize.2] at hfields
    simp only [blockFields, htype, Option.bind_eq_bind, Option.bind_some,
      Option.bind_eq_some_iff, Option.some.injEq, Prod.mk.injEq] at hfields
    obtain ⟨_, -, _, -, _, -, hsame, -⟩ := hfields
    rw [← hsame]
  · rw [if_neg hlast, if_neg (by decide), vintLoop, if_pos (by decide), Option.some.injEq,
      Prod.mk.injEq] at hsize
    obtain ⟨-, hstop⟩ := checkedAdd_eq_some.mp hstop
    have hbig : 5 <<< 7 ≤ headerSize := by
      rw [← hsize.1]
      exact Nat.right_le_or
    have hvalue : 5 <<< 7 = 640 := by decide
    simp only [List.length_cons, List.length_nil] at hlen
    omega

theorem entry_eq_none_of_endarc {d : Bytes} {b : Block} (h : b.fields.htype = tEndarc) :
    b.entry d = none := by
  rw [Block.entry, if_neg]
  rw [h]
  decide

theorem entry_damagedEnd {d : Bytes} {p i : ℕ} {v w : UInt8} {b : Block} (h : At d p endBlock)
    (hd : d.length ≤ wordMax) (hend : d.length = p + endBlock.length) (hw : d[i]? = some w)
    (hv : v ≠ w) (hread : readBlock (d.set i v) p = some (some b)) (hcrc : b.crcOk = true) :
    b.entry (d.set i v) = none := by
  have hi : i < d.length := (List.getElem?_eq_some_iff.mp hw).1
  have hlen := length_endBlock
  have hsize : (putVint (putVint tEndarc ++ putVint 0).length).length = 1 := by
    rw [endBody_eq, putVint_of_lt (by decide)]
    rfl
  have hbody : (putVint tEndarc ++ putVint 0).length = 2 := by
    rw [endBody_eq]
    rfl
  by_cases hbefore : i < p
  · obtain ⟨b', hread', -, htype, -⟩ :=
      readBlock_endBlock (h.set_apart (Or.inl hbefore) v) (by rwa [List.length_set])
    rw [hread] at hread'
    cases hread'
    exact entry_eq_none_of_endarc htype
  · obtain ⟨k, rfl⟩ := Nat.exists_eq_add_of_le (not_lt.mp hbefore)
    by_cases hk : k = 4
    · subst hk
      apply entry_eq_none_of_endarc
      apply htype_of_damagedSize (v := v) _ hread
      have hdamaged := h.set_inside (show 4 < endBlock.length by omega) v
      rw [endBlock_eq, List.set_append_right _ _ (by rw [length_le32]), length_le32] at hdamaged
      have hrest : [v, 5, 0] <+: (d.set (p + 4) v).drop (p + 4) := (At.append_iff.mp hdamaged).2
      apply (hrest.eq_of_length _).symm
      rw [List.length_drop, List.length_set, hend, hlen]
      simp
    · have hbad := crcOk_of_damagedHead h hd hv (by rw [headLength]; omega) (by omega) hw hread
      rw [hcrc] at hbad
      cases hbad

/-! ## The chain -/

/-- The file blocks of an archive with their starts. -/
def starts : ℕ → List Member → List (ℕ × Member)
  | _, [] => []
  | p, f :: fs => (p, f) :: starts (p + (fileBlock f).length) fs

def endStart (files : List Member) : ℕ := 8 + (files.flatMap fileBlock).length

theorem at_of_mem_starts {d : Bytes} {p q : ℕ} {files : List Member} {f : Member}
    (h : At d p (files.flatMap fileBlock)) (hf : (q, f) ∈ starts p files) :
    At d q (fileBlock f) ∧ f ∈ files := by
  induction files generalizing p with
  | nil => cases hf
  | cons g gs ih =>
      rw [List.flatMap_cons, At.append_iff] at h
      rw [starts] at hf
      rcases List.mem_cons.mp hf with hhead | hrest
      · cases hhead
        exact ⟨h.1, List.mem_cons_self⟩
      · obtain ⟨hat, hmem⟩ := ih h.2 hrest
        exact ⟨hat, List.mem_cons_of_mem g hmem⟩

/-- A block's end lies at least five bytes behind its start. -/
theorem add_five_le_of_hop {d : Bytes} {p next : ℕ} (h : hop d p = some next) : p + 5 ≤ next := by
  rw [hop] at h
  split at h
  · rename_i b hread
    obtain ⟨-, crc, headerSize, hcrc, hsize, hstop, -, -, -⟩ := readBlock_eq_some hread
    obtain ⟨-, hs, -⟩ := u32le_eq_some.mp hcrc
    obtain ⟨hlt, -⟩ := vint_lt hsize
    obtain ⟨-, hstop⟩ := checkedAdd_eq_some.mp hstop
    split at h
    · cases h
    · rw [Block.next] at h
      split at h
      · cases h
      · rename_i stop hnext
        obtain ⟨-, hnext⟩ := checkedAdd_eq_some.mp hnext
        split at h
        · cases h
        · cases h
          omega
  · cases h

/-- While every file block leads to the next one, the walk stays on the blocks. -/
theorem visited_chain {d : Bytes} {p : ℕ} {files : List Member} (n : ℕ)
    (hhop : ∀ q f, (q, f) ∈ starts p files → hop d q = some (q + (fileBlock f).length))
    (hlen : d.length = p + (files.flatMap fileBlock).length + endBlock.length) {x : ℕ}
    (hx : x ∈ visited d n p) :
    (∃ f, (x, f) ∈ starts p files) ∨ x = p + (files.flatMap fileBlock).length := by
  induction files generalizing n p with
  | nil =>
      have hend := length_endBlock
      simp only [List.flatMap_nil, List.length_nil, Nat.add_zero] at hlen ⊢
      cases n with
      | zero => cases hx
      | succ n =>
          rw [visited] at hx
          split at hx
          · cases hx
          · rcases List.mem_cons.mp hx with hhead | hrest
            · exact Or.inr hhead
            · cases hnext : hop d p with
              | none =>
                  rw [hnext] at hrest
                  cases hrest
              | some next =>
                  have hfar := add_five_le_of_hop hnext
                  rw [hnext] at hrest
                  dsimp only at hrest
                  cases n with
                  | zero => cases hrest
                  | succ n =>
                      rw [visited, if_pos (by omega)] at hrest
                      cases hrest
  | cons f fs ih =>
      cases n with
      | zero => cases hx
      | succ n =>
          rw [visited] at hx
          split at hx
          · cases hx
          · rcases List.mem_cons.mp hx with hhead | hrest
            · exact Or.inl ⟨f, hhead ▸ List.mem_cons_self⟩
            · rw [hhop p f List.mem_cons_self] at hrest
              rw [List.flatMap_cons, List.length_append, ← Nat.add_assoc] at hlen ⊢
              rcases ih n (fun q g hg ↦ hhop q g (List.mem_cons_of_mem _ hg)) hlen hrest with
                ⟨g, hg⟩ | hlast
              · exact Or.inl ⟨g, List.mem_cons_of_mem _ hg⟩
              · exact Or.inr hlast

/-! ## False files -/

/-- The entry has the name, size, checksum and kind of a file of the list. -/
def Listed (files : List Member) (e : FileEntry) : Prop :=
  ∃ f ∈ files, e.name = f.name ∧ e.size = some f.data.length ∧
    e.crc32 = some (checksum32 f.data) ∧ e.isDir = false

/-- Whatever is reported of `d` is in the list. -/
def NoFalseFiles (files : List Member) (d : Bytes) : Prop :=
  ∀ inv, readInventory d = some inv → ∀ e ∈ inv.files, Listed files e

/-- The byte at `i` steers the walk. -/
def Steers (files : List Member) (i : ℕ) : Prop :=
  ∃ q f, (q, f) ∈ starts 8 files ∧ f.InSteering q i

/-- No block with a sound header size starts at `p`. -/
def OffBlocks (files : List Member) (i p : ℕ) : Prop :=
  p ≠ endStart files ∧ ∀ f, (p, f) ∈ starts 8 files → f.InSize p i

/-- A header at `p` checks out and is of a file that is not in the list. -/
def Forged (files : List Member) (d : Bytes) (p : ℕ) : Prop :=
  ∃ b e, readBlock d p = some (some b) ∧ b.crcOk = true ∧ b.entry d = some e ∧ ¬Listed files e

theorem mem_factsAt {d : Bytes} {p : ℕ} {e : FileEntry} : e ∈ (factsAt d p).files ↔
    ∃ b, readBlock d p = some (some b) ∧ b.crcOk = true ∧ b.entry d = some e := by
  rw [factsAt]
  constructor
  · intro he
    split at he
    · rename_i b hread
      split at he
      · rename_i hcrc
        exact ⟨b, hread, hcrc, Option.mem_toList.mp he⟩
      · cases he
    · cases he
  · rintro ⟨b, hread, hcrc, he⟩
    rw [hread]
    dsimp only
    rw [if_pos hcrc]
    exact Option.mem_toList.mpr he

section Damaged

variable {files : List Member} {i : ℕ} {v w : UInt8}

theorem hasSignature_damaged (hi : 8 ≤ i) : HasSignature ((archive files).set i v) := by
  have hshort : ((archive files).take 8).length ≤ i := (List.length_take_le 8 _).trans hi
  rw [HasSignature, List.take_set, List.set_eq_of_length_le hshort]
  exact hasSignature_archive

theorem length_archive :
    (archive files).length = 8 + (files.flatMap fileBlock).length + endBlock.length := by
  rw [archive, List.length_append, List.length_append]
  rfl

theorem inSteering_of_inSize {f : Member} {p : ℕ} (h : f.InSize p i) : f.InSteering p i := by
  obtain ⟨hlow, hhigh⟩ := h
  refine ⟨hlow, hhigh.trans_le ?_⟩
  rw [fieldsEnd]
  omega

variable (hfit : (archive files).length ≤ wordMax)

include hfit

/-- Without a damaged steering byte the walk visits the blocks and nothing else. -/
theorem onBlocks_of_not_steers (hsteers : ¬Steers files i) {p : ℕ}
    (hp : p ∈ blockStarts ((archive files).set i v)) : ¬OffBlocks files i p := by
  have hhop : ∀ q f, (q, f) ∈ starts 8 files →
      hop ((archive files).set i v) q = some (q + (fileBlock f).length) := by
    intro q f hf
    apply hop_damagedBlock (at_of_mem_starts at_files hf).1 hfit
    intro hin
    exact hsteers ⟨q, f, hf, hin⟩
  rintro ⟨hend, hsize⟩
  rcases visited_chain maxTurns hhop (by rw [List.length_set, length_archive]) hp with
    ⟨f, hf⟩ | hlast
  · exact hsteers ⟨p, f, hf, inSteering_of_inSize (hsize f hf)⟩
  · exact hend hlast

variable (hw : (archive files)[i]? = some w) (hv : v ≠ w)

include hw hv

theorem listed_of_onBlocks {p : ℕ} {e : FileEntry} (hon : ¬OffBlocks files i p)
    (he : e ∈ (factsAt ((archive files).set i v) p).files) : Listed files e := by
  obtain ⟨b, hread, hcrc, hentry⟩ := mem_factsAt.mp he
  by_cases hend : p = endStart files
  · subst hend
    rw [entry_damagedEnd at_endBlock hfit length_archive hw hv hread hcrc] at hentry
    cases hentry
  · have hblock : ∃ f, (p, f) ∈ starts 8 files ∧ ¬f.InSize p i := by
      by_contra hno
      push Not at hno
      exact hon ⟨hend, hno⟩
    obtain ⟨f, hf, hsize⟩ := hblock
    obtain ⟨hat, hmem⟩ := at_of_mem_starts at_files hf
    rw [entry_damagedBlock hat hfit hw hv hsize hread hcrc] at hentry
    cases hentry
    exact ⟨f, hmem, rfl, rfl, rfl, rfl⟩

/-- The damaged archive yields no false file exactly when the damage does not steer, or the
parser gives up, or no header that the walk meets off the blocks is forged. -/
theorem noFalseFiles_iff (hi : 8 ≤ i) :
    NoFalseFiles files ((archive files).set i v) ↔ ¬Steers files i ∨
      (∃ p ∈ blockStarts ((archive files).set i v), Unreadable ((archive files).set i v) p) ∨
      ∀ p ∈ blockStarts ((archive files).set i v), OffBlocks files i p →
        ¬Forged files ((archive files).set i v) p := by
  constructor
  · intro hgood
    right
    by_cases hnone : readInventory ((archive files).set i v) = none
    · left
      obtain ⟨p, hp, hbad⟩ := (readInventory_eq_none (hasSignature_damaged hi)).mp hnone
      exact ⟨p, hp, readBlock_eq_none.mp hbad⟩
    · right
      obtain ⟨inv, hinv⟩ := Option.ne_none_iff_exists'.mp hnone
      rintro p hp - ⟨b, e, hread, hcrc, hentry, hforeign⟩
      have he := (mem_files_iff hinv).mpr ⟨p, hp, mem_factsAt.mpr ⟨b, hread, hcrc, hentry⟩⟩
      exact hforeign (hgood inv hinv e he)
  · intro hcase inv hinv e he
    obtain ⟨p, hp, hfacts⟩ := (mem_files_iff hinv).mp he
    by_cases hon : OffBlocks files i p
    · rcases hcase with hsteers | ⟨q, hq, hbad⟩ | hclean
      · exact absurd hon (onBlocks_of_not_steers hfit hsteers hp)
      · have hnone := (readInventory_eq_none (hasSignature_damaged hi)).mpr
          ⟨q, hq, readBlock_eq_none.mpr hbad⟩
        rw [hinv] at hnone
        cases hnone
      · by_contra hforeign
        obtain ⟨b, hread, hcrc, hentry⟩ := mem_factsAt.mp hfacts
        exact hclean p hp hon ⟨b, e, hread, hcrc, hentry, hforeign⟩
    · exact listed_of_onBlocks hfit hw hv hon hfacts

end Damaged

theorem noFalseFiles_iff_twoFiles : NoFalseFiles twoFiles ((archive twoFiles).set 20 0) ↔
    ¬Steers twoFiles 20 ∨
      (∃ p ∈ blockStarts ((archive twoFiles).set 20 0),
        Unreadable ((archive twoFiles).set 20 0) p) ∨
      ∀ p ∈ blockStarts ((archive twoFiles).set 20 0), OffBlocks twoFiles 20 p →
        ¬Forged twoFiles ((archive twoFiles).set 20 0) p :=
  noFalseFiles_iff (w := 0x42) length_twoFiles (by decide +kernel) (by decide) (by decide)

/-- A file whose data is the block of another file. -/
def wrapping : List Member := [⟨['a'], fileBlock ⟨['b'], []⟩⟩]

/-- With the data size of the first header gone, the walk goes on in the data. -/
theorem wrapping_not_noFalseFiles : (archive wrapping).length ≤ wordMax ∧
    (∃ w, (archive wrapping)[15]? = some w ∧ 0 ≠ w) ∧
      ¬NoFalseFiles wrapping ((archive wrapping).set 15 0) := by
  refine ⟨by decide +kernel, ⟨19, by decide +kernel, by decide⟩, ?_⟩
  intro hgood
  have hfound : (readInventory ((archive wrapping).set 15 0)).map
      (fun inv ↦ inv.files.map FileEntry.name) = some [['b']] := by decide +kernel
  obtain ⟨inv, hinv, hnames⟩ := Option.map_eq_some_iff.mp hfound
  obtain ⟨e, he, hname⟩ := List.mem_map.mp (hnames ▸ List.mem_singleton_self ['b'])
  obtain ⟨f, hf, hsame, -⟩ := hgood inv hinv e he
  rw [List.mem_singleton.mp hf, hname] at hsame
  cases hsame

end VeraqisRecover.Rar
