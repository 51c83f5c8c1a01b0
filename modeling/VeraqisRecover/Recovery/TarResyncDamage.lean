import VeraqisRecover.Recovery.TarResyncHealthy

/-!
# A damaged size field

Twelve bytes written over one size field of an archive whose data shows neither
headers nor zero blocks.  The resynchronisation keeps the damage to that member,
unless the size it settles on has a digit more than the field has room for.
-/

namespace VeraqisRecover.Recovery

open ByteString LossyUtf8 VeraqisRecover.Tar

namespace TarSizeBoundaryResync

/-- The padded data has no zero block and no block with the magic. -/
def Clean (m : Member) : Prop :=
  AllBlocks (fun b ↦ isZero b = false ∧ hasMagic b = false) (paddedData m.data)

instance (m : Member) : Decidable (Clean m) :=
  inferInstanceAs (Decidable (AllBlocks _ (paddedData m.data)))

def memberArchive (ms : List Member) : Bytes := tarArchive (ms.map fun m ↦ (m.name, m.data))

/-- The archive with `v` written over the size field of the member behind `before`. -/
def damagedArchive (before : List Member) (m : Member) (after : List Member) (v : Bytes) : Bytes :=
  overwrite (memberArchive (before ++ m :: after))
    ((before.flatMap fun n ↦ tarMember n.name n.data).length + 124) v

def exactly (m : Member) : Option Text × Bytes := (some m.name, m.data)

/-- Every other member comes back exactly, and the damaged one with data that agrees with its own
as far as both go. -/
def DamageStaysLocal (before : List Member) (m : Member) (after : List Member) (v : Bytes) :
    Prop :=
  ∃ output report d, apply (damagedArchive before m after v) = some (.ok (output, report)) ∧
    report.success = true ∧
    verifiedMembers output = before.map exactly ++ (some m.name, d) :: after.map exactly ∧
    d.take m.data.length = m.data.take d.length

/-! ## The damaged archive in pieces -/

def pieceOfMember (m : Member) : Piece := pieceOf m.entry

/-- A write inside of the middle part. -/
theorem overwrite_middle (a h r s : Bytes) {o : ℕ} (ho : o + s.length ≤ h.length) :
    overwrite (a ++ (h ++ r)) (a.length + o) s = a ++ (overwrite h o s ++ r) := by
  have hdrop : (a ++ (h ++ r)).drop (a.length + o + s.length) = h.drop (o + s.length) ++ r := by
    rw [Nat.add_assoc, List.drop_length_add_append, List.drop_append_of_le_length ho]
  have htake : (a ++ (h ++ r)).take (a.length + o) = a ++ h.take o := by
    rw [List.take_length_add_append, List.take_append_of_le_length (by omega)]
  rw [overwrite, htake, hdrop, overwrite]
  simp only [List.append_assoc]

theorem pieceArchive_middle (before after : List Piece) (p : Piece) :
    pieceArchive (before ++ p :: after) = piecesBytes before ++ (p.header ++ (p.body ++
      (piecesBytes after ++ List.replicate 1024 0))) := by
  rw [pieceArchive, piecesBytes, piecesBytes, piecesBytes, List.flatMap_append,
    List.flatMap_cons, Piece.bytes]
  simp only [List.append_assoc]

theorem memberArchive_eq (ms : List Member) :
    memberArchive ms = pieceArchive (ms.map pieceOfMember) := by
  have hpieces : (ms.map Member.entry).map pieceOf = ms.map pieceOfMember := List.map_map
  have hlisted : (ms.map Member.entry).map (fun e ↦ (e.name, e.data)) =
      ms.map fun m ↦ (m.name, m.data) := List.map_map
  rw [← hpieces, ← archiveOf_eq, archiveOf, hlisted, memberArchive]

theorem piecesBytes_members (ms : List Member) :
    piecesBytes (ms.map pieceOfMember) = ms.flatMap fun n ↦ tarMember n.name n.data := by
  rw [piecesBytes, List.flatMap_map]
  apply List.flatMap_congr
  intro n _
  exact (List.append_assoc _ _ _).symm

section Damaged

variable (m : Member) {v : Bytes}

theorem field_damagedHeader (hv : v.length = 12) {a n : ℕ} (hapart : a + n ≤ 124 ∨ 136 ≤ a) :
    field (overwrite m.header 124 v) a n = field m.header a n := by
  have hlen : m.header.length = 512 := m.length_header
  exact field_overwrite_of_apart (by omega) (by rw [hv]; exact hapart)

theorem length_damagedHeader (hv : v.length = 12) :
    (overwrite m.header 124 v).length = block := by
  have hlen : m.header.length = 512 := m.length_header
  rw [length_overwrite (by omega), m.length_header]

theorem hasMagic_damagedHeader (hv : v.length = 12) :
    hasMagic (overwrite m.header 124 v) = true := by
  rw [hasMagic, field_damagedHeader m hv (.inr (by decide))]
  exact m.hasMagic_header

theorem readName_damagedHeader (hv : v.length = 12) :
    readName (overwrite m.header 124 v) = m.name := by
  have hname : field (overwrite m.header 124 v) 0 100 = field m.header 0 100 :=
    field_damagedHeader m hv (.inl (by decide))
  have hpath : field (overwrite m.header 124 v) 345 155 = field m.header 345 155 :=
    field_damagedHeader m hv (.inr (by decide))
  rw [← m.readName_header, readName, readName, hname, hpath]

theorem storedSize_damagedHeader (hv : v.length = 12) :
    storedSize (overwrite m.header 124 v) = (octalField v).getD 0 := by
  have hlen : m.header.length = 512 := m.length_header
  rw [storedSize, field_overwrite_self (by omega) hv.ge, List.take_of_length_le hv.le]

def damagedPiece (hv : v.length = 12) : Piece where
  header := overwrite m.header 124 v
  body := paddedData m.data
  length_header := length_damagedHeader m hv
  magic := hasMagic_damagedHeader m hv
  aligned := by
    rw [length_paddedData]
    exact Dvd.intro_left _ rfl

theorem damagedArchive_eq (before after : List Member) (hv : v.length = 12) :
    damagedArchive before m after v =
      pieceArchive (before.map pieceOfMember ++
        damagedPiece m hv :: after.map pieceOfMember) := by
  have hlen : m.header.length = 512 := m.length_header
  rw [damagedArchive, memberArchive_eq, List.map_append, List.map_cons, pieceArchive_middle,
    pieceArchive_middle, ← piecesBytes_members]
  exact overwrite_middle _ m.header _ v (by omega)

end Damaged

/-! ## Where it ends -/

theorem allBlocks_piecesBytes {P : Bytes → Prop} {ps : List Piece}
    (h : ∀ p ∈ ps, P p.header ∧ AllBlocks P p.body) : AllBlocks P (piecesBytes ps) := by
  induction ps with
  | nil =>
      intro q hq
      exact absurd hq (Nat.not_lt_zero q)
  | cons p ps ih =>
      obtain ⟨hheader, hbody⟩ := h p List.mem_cons_self
      have hone : AllBlocks P p.header := by
        intro q hq
        rw [p.length_header] at hq
        obtain rfl : q = 0 := Nat.lt_one_iff.mp hq
        have hwhole := field_zero_length p.length_header []
        rw [List.append_nil] at hwhole
        rw [blockAt, Nat.zero_mul, hwhole]
        exact hheader
      rw [piecesBytes, List.flatMap_cons, allBlocks_append p.block_dvd_bytes, Piece.bytes,
        allBlocks_append p.length_header.symm.dvd]
      exact ⟨⟨hone, hbody⟩, ih fun q hq ↦ h q (List.mem_cons_of_mem p hq)⟩

/-- Without a zero block in front of it, the terminator is where the archive ends. -/
theorem findEndOfArchive_of_nonzero {ps : List Piece}
    (h : ∀ p ∈ ps, AllBlocks (fun b ↦ isZero b = false) p.body) :
    findEndOfArchive (pieceArchive ps) ((pieceArchive ps).length / block) =
      (piecesBytes ps).length := by
  obtain ⟨k, hk⟩ := block_dvd_piecesBytes ps
  rw [Nat.mul_comm] at hk
  have hnonzero : AllBlocks (fun b ↦ isZero b = false) (piecesBytes ps) :=
    allBlocks_piecesBytes fun p hp ↦ ⟨isZero_of_hasMagic p.magic, h p hp⟩
  apply (findEndOfArchive_spec (piecesBytes ps) hk).2.mpr
  rintro i hi ⟨hzero, -⟩
  have hin : i < (piecesBytes ps).length / block := by
    rwa [hk, Nat.mul_div_cancel k (by decide)]
  rw [blockAt_append_left hin, hnonzero i hin] at hzero
  cases hzero

/-- The span of a piece in the middle is its own data. -/
theorem mem_pieceSpans_middle (eoa o : ℕ) (before after : List Piece) (p : Piece)
    (heoa : eoa = o + (piecesBytes (before ++ p :: after)).length) :
    (o + (piecesBytes before).length, o + (piecesBytes before).length + p.bytes.length) ∈
      pieceSpans eoa o (before ++ p :: after) := by
  induction before generalizing o with
  | nil =>
      have hbytes : (piecesBytes (p :: after)).length =
          p.bytes.length + (piecesBytes after).length := List.length_append
      rw [List.nil_append, pieceSpans]
      cases after with
      | nil =>
          rw [List.nil_append, hbytes] at heoa
          change eoa = o + (p.bytes.length + 0) at heoa
          rw [if_pos rfl, heoa]
          exact List.mem_cons_self
      | cons q after =>
          rw [if_neg (List.cons_ne_nil q after)]
          exact List.mem_cons_self
  | cons q before ih =>
      have hbytes : (piecesBytes (q :: before)).length =
          q.bytes.length + (piecesBytes before).length := List.length_append
      have hall : (piecesBytes (q :: (before ++ p :: after))).length =
          q.bytes.length + (piecesBytes (before ++ p :: after)).length := List.length_append
      rw [List.cons_append, hall] at heoa
      have hrest := ih (o + q.bytes.length) (by omega)
      rw [List.cons_append, pieceSpans, hbytes, ← Nat.add_assoc]
      exact List.mem_cons_of_mem _ hrest

/-! ## The damage stays local -/

/-- The size that was read does not fit the field it is written back to. -/
def OverflowsField (m : Member) (v : Bytes) : Prop :=
  paddedSize m.data.length = 8 ^ 11 ∧ 8 ^ 11 ≤ (octalField v).getD 0

theorem paddedSize_le_of_small {n : ℕ} (h : n < 8 ^ 11) : paddedSize n ≤ 8 ^ 11 := by
  unfold paddedSize divCeil block
  omega

/-- A size that is read, and cut to the member's own blocks, fits the field unless both are one
digit too long. -/
theorem extent_lt_iff (m : Member) (v : Bytes) :
    (extent ((octalField v).getD 0) (paddedSize m.data.length)).size < 8 ^ 11 ↔
      ¬OverflowsField m v := by
  generalize hstored : (octalField v).getD 0 = stored
  rw [OverflowsField, hstored]
  have hle := paddedSize_le_of_small m.small
  constructor
  · rintro hlt ⟨hfull, hlarge⟩
    rw [hfull] at hlt
    by_cases hfits : paddedSize stored ≤ 8 ^ 11
    · rw [extent_of_fits hfits] at hlt
      exact absurd hlt (not_lt.mpr hlarge)
    · rw [extent_of_exceeds (not_le.mp hfits)] at hlt
      exact absurd hlt (by decide)
  · intro hno
    by_contra hlarge
    have hstored' := (not_lt.mp hlarge).trans (size_le_stored stored _)
    have hmax := (not_lt.mp hlarge).trans (size_le_maxData stored _)
    exact hno ⟨le_antisymm hle hmax, hstored'⟩

section Local

variable {before after : List Member} {m : Member} {v : Bytes}

/-- The damaged archive, piece by piece. -/
def damagedPieces (before : List Member) (m : Member) (after : List Member) (hv : v.length = 12) :
    List Piece :=
  before.map pieceOfMember ++ damagedPiece m hv :: after.map pieceOfMember

theorem exists_member_of_mem (hv : v.length = 12) {p : Piece}
    (hp : p ∈ damagedPieces before m after hv) :
    p = damagedPiece m hv ∨ ∃ n ∈ before ++ m :: after, p = pieceOfMember n := by
  rcases List.mem_append.mp hp with hp | hp
  · obtain ⟨n, hn, rfl⟩ := List.mem_map.mp hp
    exact .inr ⟨n, List.mem_append_left _ hn, rfl⟩
  · rcases List.mem_cons.mp hp with rfl | hp
    · exact .inl rfl
    · obtain ⟨n, hn, rfl⟩ := List.mem_map.mp hp
      exact .inr ⟨n, List.mem_append_right _ (List.mem_cons_of_mem m hn), rfl⟩

theorem body_clean (hclean : ∀ n ∈ before ++ m :: after, Clean n) (hv : v.length = 12)
    {p : Piece} (hp : p ∈ damagedPieces before m after hv) :
    AllBlocks (fun b ↦ isZero b = false ∧ hasMagic b = false) p.body := by
  rcases exists_member_of_mem hv hp with rfl | ⟨n, hn, rfl⟩
  · exact hclean m (List.mem_append_right _ List.mem_cons_self)
  · exact hclean n hn

variable (hclean : ∀ n ∈ before ++ m :: after, Clean n) (hv : v.length = 12)

include hclean in
theorem plain_damagedPieces : ∀ p ∈ damagedPieces before m after hv, p.Plain :=
  fun _ hp q hq ↦ (body_clean hclean hv hp q hq).2

include hclean in
theorem end_damagedPieces : findEndOfArchive (pieceArchive (damagedPieces before m after hv))
    ((pieceArchive (damagedPieces before m after hv)).length / block) =
      (piecesBytes (damagedPieces before m after hv)).length :=
  findEndOfArchive_of_nonzero fun _ hp q hq ↦ (body_clean hclean hv hp q hq).1

include hclean in
theorem spans_damagedPieces : spans (pieceArchive (damagedPieces before m after hv)) =
    pieceSpans (piecesBytes (damagedPieces before m after hv)).length 0
      (damagedPieces before m after hv) := by
  rw [spans_pieceArchive (plain_damagedPieces hclean hv), end_damagedPieces hclean hv]

include hclean in
/-- Every piece is found with its own blocks. -/
theorem members_damagedPieces :
    (spans (pieceArchive (damagedPieces before m after hv))).map
        (salvaged (pieceArchive (damagedPieces before m after hv))) =
      (damagedPieces before m after hv).map fun p ↦ p.found p.body.length := by
  have hmap := map_salvaged_pieceSpans (piecesBytes (damagedPieces before m after hv)).length
    1024 (damagedPieces before m after hv) [] (by rw [List.length_nil, Nat.zero_add])
  rw [spans_damagedPieces hclean hv]
  refine hmap.trans (foundFrom_eq _ 0 _ ?_)
  intro p _
  exact .inl (Nat.zero_add _).symm

theorem found_pieceOfMember (n : Member) :
    (pieceOfMember n).found (pieceOfMember n).body.length = exactly n := by
  refine (found_pieceOf n.entry (length_paddedData _).ge).trans ?_
  exact congrArg (fun name ↦ (some name, n.data)) (Entry.cstr_asBytes n.noNul)

/-- What a damaged member is found with agrees with its data as far as both go. -/
theorem found_damagedPiece : ∃ d,
    (damagedPiece m hv).found (damagedPiece m hv).body.length = (some m.name, d) ∧
      d.take m.data.length = m.data.take d.length := by
  generalize hsize : (extent (storedSize (overwrite m.header 124 v))
    (paddedData m.data).length).size = size
  refine ⟨(paddedData m.data).take size, ?_, ?_⟩
  · rw [Piece.found, damagedPiece]
    dsimp only
    rw [readName_damagedHeader m hv, hsize]
  · rw [List.take_take, List.length_take, paddedData, List.length_append,
      List.take_append_of_le_length (min_le_left _ _), List.take_eq_take_iff]
    omega

include hclean in
/-- The damaged header is rebuilt with the size read from it, cut to its own blocks. -/
theorem size_of_written {output : Bytes} {report : RecoveryReport}
    (happly : apply (pieceArchive (damagedPieces before m after hv)) =
      some (.ok (output, report))) (hwritten : report.success = true) :
    (extent ((octalField v).getD 0) (paddedSize m.data.length)).size < 8 ^ 11 := by
  have hsizes := (of_apply happly hwritten).2.1
  have hspan := mem_pieceSpans_middle (piecesBytes (damagedPieces before m after hv)).length 0
    (before.map pieceOfMember) (after.map pieceOfMember) (damagedPiece m hv)
    (Nat.zero_add _).symm
  rw [Nat.zero_add] at hspan
  rw [spans_damagedPieces hclean hv] at hsizes
  have hsize := hsizes _ hspan
  have hheader : field (pieceArchive (damagedPieces before m after hv))
      (piecesBytes (before.map pieceOfMember)).length block = overwrite m.header 124 v := by
    have hlen : (overwrite m.header 124 v).length = block := length_damagedHeader m hv
    have hfield := field_append (piecesBytes (before.map pieceOfMember))
      (overwrite m.header 124 v ++ (paddedData m.data ++
        (piecesBytes (after.map pieceOfMember) ++ List.replicate 1024 0))) 0 block
    rw [Nat.add_zero, field_zero_length hlen] at hfield
    rw [damagedPieces, pieceArchive_middle]
    exact hfield
  have hbody : (damagedPiece m hv).body.length = paddedSize m.data.length := length_paddedData _
  have hgap : (piecesBytes (before.map pieceOfMember)).length + (damagedPiece m hv).bytes.length -
      ((piecesBytes (before.map pieceOfMember)).length + block) = paddedSize m.data.length := by
    rw [(damagedPiece m hv).length_bytes, hbody]
    omega
  rw [extentAt, hheader, hgap, storedSize_damagedHeader m hv] at hsize
  exact hsize

include hclean in
theorem exists_apply_of_fits (hfits : ¬OverflowsField m v) : ∃ output report,
    apply (pieceArchive (damagedPieces before m after hv)) = some (.ok (output, report)) ∧
      report.success = true := by
  have hplain := plain_damagedPieces hclean hv
  apply exists_apply
  · intro hnil
    have hcount := length_headerPositions (damagedPieces before m after hv) 1024
    rw [← pieceArchive, hnil, damagedPieces, List.length_append, List.length_cons,
      List.length_nil] at hcount
    omega
  · intro s hs
    rw [spans_damagedPieces hclean hv] at hs
    obtain ⟨p, hp, hheader, hgap⟩ := of_mem_pieceSpans _ (damagedPieces before m after hv) []
      (List.replicate 1024 0) (by rw [List.length_nil, Nat.zero_add]) s hs
    rw [List.nil_append, ← pieceArchive] at hheader
    rw [extentAt, hheader]
    rcases exists_member_of_mem hv hp with rfl | ⟨n, -, rfl⟩
    · have hstored : storedSize (damagedPiece m hv).header = (octalField v).getD 0 :=
        storedSize_damagedHeader m hv
      have hbody : (damagedPiece m hv).body.length = paddedSize m.data.length :=
        length_paddedData _
      rw [hbody] at hgap
      rw [hstored]
      by_contra hlarge
      apply hfits
      refine ⟨?_, (not_lt.mp hlarge).trans (size_le_stored _ _)⟩
      exact le_antisymm (paddedSize_le_of_small m.small)
        ((not_lt.mp hlarge).trans ((size_le_maxData _ _).trans hgap))
    · refine (size_le_stored _ _).trans_lt ?_
      exact (storedSize_header n.entry).trans_lt n.small

/-- Damage to one size field stays with its member exactly when the size read from it, cut to the
member's own blocks, has a numeral of eleven digits. -/
theorem sizeDamage_local_iff (before after : List Member) (m : Member) (v : Bytes)
    (hclean : ∀ n ∈ before ++ m :: after, Clean n) (hv : v.length = 12) :
    DamageStaysLocal before m after v ↔ ¬OverflowsField m v := by
  rw [DamageStaysLocal, damagedArchive_eq m before after hv]
  constructor
  · rintro ⟨output, report, -, happly, hwritten, -⟩
    exact (extent_lt_iff m v).mp (size_of_written hclean hv happly hwritten)
  · intro hfits
    obtain ⟨output, report, happly, hwritten⟩ := exists_apply_of_fits hclean hv hfits
    obtain ⟨d, hfound, hcommon⟩ := found_damagedPiece (m := m) hv
    refine ⟨output, report, d, happly, hwritten, ?_, hcommon⟩
    rw [(of_apply happly hwritten).2.2, members_damagedPieces hclean hv, damagedPieces,
      List.map_append, List.map_cons, hfound, List.map_map, List.map_map]
    have hexact : (fun p ↦ p.found p.body.length) ∘ pieceOfMember = exactly :=
      funext found_pieceOfMember
    rw [hexact]

end Local

/-! ## Two archives -/

/-- A member of `n` letters. -/
def letters (n : ℕ) (h : n < 8 ^ 11) : Member where
  name := ['a']
  data := List.replicate n 0x61
  nonempty := List.cons_ne_nil _ _
  noNul := by decide
  short := letter_short
  small := by rwa [List.length_replicate]

/-- Twelve sevens, the largest number the field can hold. -/
def sevens : Bytes := List.replicate 12 0x37

theorem sizeDamage_local_iff_letters :
    DamageStaysLocal [letters 2 (by decide)] (letters 3 (by decide)) [letters 513 (by decide)]
        sevens ↔ ¬OverflowsField (letters 3 (by decide)) sevens :=
  sizeDamage_local_iff [letters 2 (by decide)] [letters 513 (by decide)] (letters 3 (by decide))
    sevens (by decide +kernel) (by decide)

/-- Letters show neither the magic nor a zero block. -/
theorem clean_letters {n : ℕ} (h : n < 8 ^ 11) : Clean (letters n h) := by
  have hlen := length_paddedData (List.replicate n (0x61 : UInt8))
  have hmem : ∀ b ∈ paddedData (List.replicate n (0x61 : UInt8)), b = 0x61 ∨ b = 0 := by
    intro b hb
    rcases List.mem_append.mp hb with hb | hb
    · exact .inl (List.eq_of_mem_replicate hb)
    · exact .inr (List.eq_of_mem_replicate hb)
  intro q hq
  change q < (paddedData (List.replicate n (0x61 : UInt8))).length / block at hq
  change isZero (blockAt (paddedData (List.replicate n (0x61 : UInt8))) q) = false ∧
    hasMagic (blockAt (paddedData (List.replicate n (0x61 : UInt8))) q) = false
  have hroom := block_le_of_lt hq
  have hletter : (blockAt (paddedData (List.replicate n (0x61 : UInt8))) q)[0]? = some 0x61 := by
    have hin : q * block < n := by
      rw [hlen, List.length_replicate] at hroom
      unfold paddedSize divCeil block at *
      omega
    rw [blockAt, getElem?_field (by decide), Nat.add_zero, paddedData,
      List.getElem?_append_left (by rwa [List.length_replicate]),
      List.getElem?_replicate_of_lt hin]
  constructor
  · rw [← Bool.not_eq_true]
    intro hzero
    exact absurd (List.all_eq_true.mp hzero _ (List.mem_of_getElem? hletter)) (by decide)
  · rw [← Bool.not_eq_true]
    intro hmagic
    have hustar : field (blockAt (paddedData (List.replicate n (0x61 : UInt8))) q) 257 5 =
        ustar := of_decide_eq_true hmagic
    have hin : (0x75 : UInt8) ∈ field (blockAt (paddedData (List.replicate n
        (0x61 : UInt8))) q) 257 5 := by
      rw [hustar]
      decide
    have hbody := List.mem_of_mem_drop (List.mem_of_mem_take hin)
    rcases hmem _ (List.mem_of_mem_drop (List.mem_of_mem_take hbody)) with h | h
    · exact absurd h (by decide)
    · exact absurd h (by decide)

/-- With a last block that is full, the size is one digit too long for its field. -/
theorem not_local_of_overflowsField {n : ℕ} (h : n < 8 ^ 11) {v : Bytes} (hv : v.length = 12)
    (hover : OverflowsField (letters n h) v) : ¬DamageStaysLocal [] (letters n h) [] v := by
  have hclean : ∀ m ∈ [] ++ letters n h :: [], Clean m := by
    intro m hm
    rw [List.mem_singleton.mp hm]
    exact clean_letters h
  rw [DamageStaysLocal, damagedArchive_eq _ [] [] hv]
  rintro ⟨output, report, -, happly, hwritten, -⟩
  exact (extent_lt_iff _ v).mp (size_of_written hclean hv happly hwritten) hover

/-- One letter less than 8 GiB, and a size field of sevens. -/
theorem sevens_not_local :
    ¬DamageStaysLocal [] (letters (8 ^ 11 - 1) (by decide)) [] sevens := by
  apply not_local_of_overflowsField _ (by decide)
  constructor
  · have hlen : (letters (8 ^ 11 - 1) (by decide)).data.length = 8 ^ 11 - 1 :=
      List.length_replicate
    rw [hlen]
    decide
  · decide +kernel

end TarSizeBoundaryResync

end VeraqisRecover.Recovery
