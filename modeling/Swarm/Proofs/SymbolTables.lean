import Mathlib.Algebra.Group.Nat.Defs
import Mathlib.Control.Monad.Basic
import Mathlib.Data.List.Chain
import Swarm.Proofs.Counted
import Swarm.Debug.Table

/-!
# Debug-symbol tables and their bytes

A table that was recorded is read back from its bytes exactly if its names fit into their
words and no difference of lines or columns is cut. A difference is kept modulo 2³² after it
was folded, so one that is cut comes back moved by 2³¹. The position that is read differs
from the written one there and then, whatever the differences after it are.
-/

namespace Swarm

namespace Utf8

/-- The loop behind `ByteArray.toList` adds the bytes that are left. -/
private theorem toList_loop (bytes : ByteArray) (start : Nat) (found : List UInt8) :
    ByteArray.toList.loop bytes start found = found.reverse ++ bytes.data.toList.drop start := by
  fun_induction ByteArray.toList.loop bytes start found with
  | case1 start found hlt ih =>
    have hlt' : start < bytes.data.toList.length := hlt
    rw [ih, List.drop_eq_getElem_cons hlt']
    simp [ByteArray.get!, getElem!_pos bytes.data start hlt]
  | case2 start found hle =>
    have hle' : bytes.data.toList.length ≤ start := Nat.le_of_not_lt hle
    rw [List.drop_eq_nil_of_le hle', List.append_nil]

/-- The bytes of a string, as the string holds them. -/
theorem encode_eq (s : String) : encode s = s.toByteArray.data.toList := by
  simp [encode, ByteArray.toList, toList_loop]

/-- Decoding accepts exactly the encodings of strings. -/
theorem decode?_eq_some_iff {bs : Bytes} {s : String} : decode? bs = some s ↔ bs = encode s := by
  rw [encode_eq]
  unfold decode? String.fromUTF8?
  constructor
  · intro h
    split at h
    · cases h
      rfl
    · cases h
  · rintro rfl
    rw [dif_pos s.isValidUTF8]
    rfl

end Utf8

namespace Debug

namespace VarInt

/-- A number below the range of the allowed bytes is read where it was written. -/
theorem decodeNat?_encodeNat {limit n : Nat} (h : n < 128 ^ limit) (hpos : 0 < limit)
    (rest : Bytes) : decodeNat? limit (encodeNat n ++ rest) = some (n, rest) := by
  induction limit generalizing n with
  | zero => omega
  | succ limit ih =>
    rw [Nat.pow_succ] at h
    unfold encodeNat
    split
    · rename_i hlast
      have hbyte : (UInt8.ofNat n).toNat = n := by
        rw [UInt8.toNat_ofNat']
        omega
      have hless : UInt8.ofNat n < 128 := by rw [UInt8.lt_iff_toNat_lt, hbyte]; exact hlast
      simp [decodeNat?, hless, hbyte]
    · rename_i hmore
      have hbyte : (UInt8.ofNat (n % 128 + 128)).toNat = n % 128 + 128 := by
        rw [UInt8.toNat_ofNat']
        omega
      have hnotless : ¬UInt8.ofNat (n % 128 + 128) < 128 := by
        rw [UInt8.lt_iff_toNat_lt, hbyte]
        simp
      have hpos' : 0 < limit := by
        rcases Nat.eq_zero_or_pos limit with rfl | hpos'
        · omega
        · exact hpos'
      have hrest := ih (n := n / 128) (by omega) hpos'
      simp only [List.cons_append, decodeNat?, if_neg hnotless, hrest, hbyte, Option.map_some,
        Option.some.injEq, Prod.mk.injEq, and_true]
      omega

/-- A 32-bit number is read where it was written. -/
theorem decode?_encode (n : UInt32) (rest : Bytes) :
    decode? (encode n ++ rest) = some (n, rest) := by
  have hlt : n.toNat < 128 ^ 5 := by
    have := n.toNat_lt
    omega
  simp [decode?, encode, decodeNat?_encodeNat hlt (by decide) rest]

/-- What is read for a signed difference that was written. -/
def kept (delta : Int) : Int := unzigzag (UInt32.ofNat (zigzag delta)).toNat

/-- A difference in the range of 32 bits is kept. -/
theorem kept_eq {delta : Int} (hlow : -2147483648 ≤ delta) (hhigh : delta ≤ 2147483647) :
    kept delta = delta := by
  have hlt : zigzag delta < 4294967296 := by
    unfold zigzag
    split <;> omega
  unfold kept
  rw [UInt32.toNat_ofNat_of_lt' hlt, unzigzag_zigzag]

/-- Any other difference of two 32-bit numbers comes back moved by half their range. -/
theorem kept_eq_moved (delta : Int) (h : -4294967296 < delta ∧ delta < 4294967296)
    (hout : delta < -2147483648 ∨ 2147483647 < delta) :
    kept delta = delta - 2147483648 ∨ kept delta = delta + 2147483648 := by
  unfold kept
  rw [UInt32.toNat_ofNat']
  unfold zigzag unzigzag
  split <;> split <;> omega

end VarInt

open VarInt

/-- A number is written as a word modulo 2^32. -/
theorem toNat_word (n : Int) : (word n).toNat = (n % 4294967296).toNat := by
  rw [word, UInt32.toNat_ofNat']
  omega

/-- The sum with a difference that was written and read is right exactly if the difference is
in the range of 32 bits. -/
theorem word_add_kept_iff (a b : UInt32) :
    word (a.toNat + kept (b.toNat - a.toNat)) = b ↔
      -2147483648 ≤ (b.toNat : Int) - a.toNat ∧ (b.toNat : Int) - a.toNat ≤ 2147483647 := by
  have ha := a.toNat_lt
  have hb := b.toNat_lt
  constructor
  · intro h
    by_contra hout
    have hmoved := kept_eq_moved (b.toNat - a.toNat) (by omega) (by omega)
    have hvalue := congrArg UInt32.toNat h
    rw [toNat_word] at hvalue
    omega
  · rintro ⟨hlow, hhigh⟩
    rw [kept_eq hlow hhigh]
    apply UInt32.toNat_inj.1
    rw [toNat_word]
    omega

namespace Table

/-- The lines and the columns of two entries differ by a signed number of 32 bits. -/
structure Near (a b : Entry) : Prop where
  /-- The lines are not too far apart. -/
  line : -2147483648 ≤ (b.line.toNat : Int) - a.line.toNat ∧
    (b.line.toNat : Int) - a.line.toNat ≤ 2147483647
  /-- The columns are not too far apart. -/
  column : -2147483648 ≤ (b.column.toNat : Int) - a.column.toNat ∧
    (b.column.toNat : Int) - a.column.toNat ≤ 2147483647

instance (a b : Entry) : Decidable (Near a b) :=
  decidable_of_iff
    ((-2147483648 ≤ (b.line.toNat : Int) - a.line.toNat ∧
        (b.line.toNat : Int) - a.line.toNat ≤ 2147483647) ∧
      -2147483648 ≤ (b.column.toNat : Int) - a.column.toNat ∧
        (b.column.toNat : Int) - a.column.toNat ≤ 2147483647)
    ⟨fun h => ⟨h.1, h.2⟩, fun h => ⟨h.line, h.column⟩⟩

/-- The entry from which the differences of the first one are taken. -/
def start : Entry := ⟨0, 0, 0, 0⟩

/-- The numbers of an entry are read where they were written, the differences as far as they
are kept. -/
theorem readNumbers?_writeEntry (origin : Origin) (e : Entry) (rest : Bytes) :
    readNumbers? (writeEntry origin e ++ rest) =
      some (e.pc - origin.pc, UInt32.ofNat (zigzag (e.line.toNat - origin.line)),
        UInt32.ofNat (zigzag (e.column.toNat - origin.column)), e.file, rest) := by
  simp [readNumbers?, writeEntry, writeDelta, List.append_assoc, decode?_encode]

/-- The origin that is reached by reading an entry which was written after another one. -/
def reached (a e : Entry) : Origin :=
  ⟨e.pc, a.line.toNat + kept (e.line.toNat - a.line.toNat),
    a.column.toNat + kept (e.column.toNat - a.column.toNat)⟩

/-- Advancing by the difference to an offset that is not before the origin leads to it. -/
theorem advance?_sub {origin : Origin} {pc : UInt32} (h : origin.pc ≤ pc)
    (line column : UInt32) :
    origin.advance? (pc - origin.pc) line column =
      some ⟨pc, origin.line + unzigzag line.toNat, origin.column + unzigzag column.toNat⟩ := by
  have hsub : (pc - origin.pc).toNat = pc.toNat - origin.pc.toNat :=
    UInt32.toNat_sub_of_le _ _ h
  have hle : origin.pc.toNat ≤ pc.toNat := UInt32.le_iff_toNat_le.1 h
  have hlt := pc.toNat_lt
  have hrange : origin.pc.toNat + (pc - origin.pc).toNat < 4294967296 := by omega
  have hadd : origin.pc + (pc - origin.pc) = pc := by
    apply UInt32.toNat_inj.1
    rw [UInt32.toNat_add, hsub]
    omega
  rw [Origin.advance?, if_pos hrange, hadd]

/-- An entry that is written after an earlier one is read with its offset and its file. -/
theorem readEntry_writeEntry {fileCount : Nat} {a e : Entry} (hpc : a.pc ≤ e.pc)
    (hfile : e.file.toNat < fileCount) (rest : Bytes) :
    readEntry fileCount a.origin (writeEntry a.origin e ++ rest) =
      .ok (⟨e.pc, word (reached a e).line, word (reached a e).column, e.file⟩,
        reached a e, rest) := by
  have horigin : a.origin.pc ≤ e.pc := hpc
  unfold readEntry
  rw [readNumbers?_writeEntry]
  dsimp only
  rw [advance?_sub horigin]
  simp [hfile, reached, kept, Entry.origin]

/-- What is read of an entry is the entry exactly if it is near the one before it. -/
theorem read_eq_iff {a e : Entry} :
    (⟨e.pc, word (reached a e).line, word (reached a e).column, e.file⟩ : Entry) = e ↔
      Near a e := by
  have hline := word_add_kept_iff a.line e.line
  have hcolumn := word_add_kept_iff a.column e.column
  constructor
  · intro h
    exact ⟨hline.1 (congrArg Entry.line h), hcolumn.1 (congrArg Entry.column h)⟩
  · intro h
    have hline' : word (reached a e).line = e.line := hline.2 h.line
    have hcolumn' : word (reached a e).column = e.column := hcolumn.2 h.column
    rw [hline', hcolumn']

/-- After an entry near the one before it, reading goes on from that entry itself. -/
theorem reached_eq {a e : Entry} (h : Near a e) : reached a e = e.origin := by
  unfold reached Entry.origin
  rw [kept_eq h.line.1 h.line.2, kept_eq h.column.1 h.column.2]
  simp only [Origin.mk.injEq, true_and]
  omega

/-- Reading entries keeps those that were already read. -/
theorem exists_append_of_readEntries {fileCount : Nat} {origin : Origin}
    {found entries : Array Entry} {bs : Bytes}
    (h : readEntries fileCount origin found bs = .ok entries) :
    ∃ more, entries.toList = found.toList ++ more := by
  fun_induction readEntries fileCount origin found bs with
  | case1 => cases h; exact ⟨[], by simp⟩
  | case2 => cases h
  | case3 origin found bs _ e next rest _ _ ih =>
    obtain ⟨more, hmore⟩ := ih h
    exact ⟨e :: more, by simpa using hmore⟩

/-- Reading entries begins with the first of them. -/
theorem readEntries_of_readEntry {fileCount : Nat} {origin next : Origin} {bs rest : Bytes}
    {e : Entry} (h : readEntry fileCount origin bs = .ok (e, next, rest)) (found : Array Entry) :
    readEntries fileCount origin found bs = readEntries fileCount next (found.push e) rest := by
  have hlt := length_lt_of_readEntry h
  have hnonempty : ¬bs.isEmpty = true := by
    rintro hempty
    rw [List.isEmpty_iff.1 hempty] at hlt
    exact Nat.not_lt_zero _ hlt
  conv => lhs; unfold readEntries
  rw [if_neg hnonempty]
  split
  · rename_i error herror
    rw [h] at herror
    cases herror
  · rename_i hentry
    rw [h] at hentry
    cases hentry
    rfl

/-- Entries in the order of their offsets are read back exactly if each is near the one before
it. The induction is on the entries: as long as they are near, reading goes on from where
writing did, and the first one that is not near is read as another entry. -/
theorem readEntries_writeEntries_iff {fileCount : Nat} {a : Entry} {es : List Entry}
    (hsorted : (a :: es).IsChain fun a b => a.pc ≤ b.pc)
    (hfile : ∀ e ∈ es, e.file.toNat < fileCount) (found : Array Entry) :
    readEntries fileCount a.origin found (writeEntries a.origin es) =
        .ok (found ++ es.toArray) ↔ (a :: es).IsChain Near := by
  induction es generalizing a found with
  | nil => simp [writeEntries, readEntries]
  | cons e es ih =>
    obtain ⟨hpc, hsorted⟩ := List.isChain_cons_cons.1 hsorted
    obtain ⟨hfirst, hfile⟩ := List.forall_mem_cons.1 hfile
    have hread := readEntry_writeEntry hpc hfirst (writeEntries e.origin es)
    rw [List.isChain_cons_cons, ← read_eq_iff, writeEntries, readEntries_of_readEntry hread]
    constructor
    · intro h
      -- Later entries do not change the first one, so it was read as it is in the result.
      obtain ⟨more, hmore⟩ := exists_append_of_readEntries h
      have hsame : (⟨e.pc, word (reached a e).line, word (reached a e).column, e.file⟩ :
          Entry) = e := by
        simp only [Array.toList_append, Array.toList_push, List.append_assoc,
          List.append_cancel_left_eq, List.cons_append, List.nil_append] at hmore
        exact (List.cons.inj hmore).1.symm
      rw [hsame, reached_eq (read_eq_iff.1 hsame)] at h
      refine ⟨hsame, (ih hsorted hfile (found.push e)).1 ?_⟩
      simpa using h
    · rintro ⟨hsame, hrest⟩
      rw [hsame, reached_eq (read_eq_iff.1 hsame)]
      simpa using (ih hsorted hfile (found.push e)).2 hrest

/-- A reader that accepts exactly what was written for each element reads whole lists so. -/
theorem mapM_eq_ok_iff {α β ε : Type} {read : α → Except ε β} {write : β → α}
    (h : ∀ a b, read a = .ok b ↔ a = write b) (as : List α) (bs : List β) :
    as.mapM read = .ok bs ↔ as = bs.map write := by
  induction as generalizing bs with
  | nil => cases bs <;> simp [pure, Except.pure]
  | cons a as ih =>
    rw [List.mapM_cons]
    constructor
    · intro hread
      cases ha : read a with
      | error e =>
        rw [ha] at hread
        cases hread
      | ok b =>
        cases has : as.mapM read with
        | error e =>
          rw [ha, has] at hread
          cases hread
        | ok rest =>
          rw [ha, has] at hread
          cases hread
          rw [List.map_cons, (h a b).1 ha, (ih _).1 has]
    · intro hwrite
      cases bs with
      | nil => cases hwrite
      | cons b bs =>
        obtain ⟨ha, has⟩ := List.cons.inj hwrite
        rw [(h a b).2 ha, (ih _).2 has]
        rfl

/-- Such a reader reads whole arrays so. -/
theorem array_mapM_eq_ok_iff {α β ε : Type} {read : α → Except ε β} {write : β → α}
    (h : ∀ a b, read a = .ok b ↔ a = write b) (as : Array α) (bs : Array β) :
    as.mapM read = .ok bs ↔ as = bs.map write := by
  rw [← Array.toList_inj, Array.toList_map, ← mapM_eq_ok_iff h, Array.mapM_eq_mapM_toList]
  cases as.toList.mapM read with
  | error e => simp [Functor.map, Except.map]
  | ok found =>
    simp only [Functor.map, Except.map, Except.ok.injEq]
    rw [← Array.toList_inj]

/-- Names are read exactly from their encodings. -/
theorem readNames_eq_ok_iff {names : Array Bytes} {files : Array String} :
    readNames names = .ok files ↔ names = files.map Utf8.encode := by
  unfold readNames
  refine array_mapM_eq_ok_iff (fun name file => ?_) names files
  rw [← Utf8.decode?_eq_some_iff]
  cases Utf8.decode? name <;> simp

/-- A call that records a source position. -/
structure Mark where
  /-- Offset in the code. -/
  pc : UInt32
  /-- Name of the source file. -/
  file : String
  /-- Line in the source file. -/
  line : UInt32
  /-- Column in the source file. -/
  column : UInt32
  deriving DecidableEq, Repr

/-- The table in which source positions were recorded one after the other. -/
def ofMarks (marks : List Mark) : Table :=
  marks.foldl (fun t m => t.record m.pc m.file m.line m.column) {}

/-- Recording appends one entry, which names a file of the table; no file is removed. -/
theorem entries_record (t : Table) (m : Mark) :
    ∃ file : UInt32, file.toNat < (t.record m.pc m.file m.line m.column).files.size ∧
      t.files.size ≤ (t.record m.pc m.file m.line m.column).files.size ∧
      (t.record m.pc m.file m.line m.column).entries =
        t.entries.push ⟨m.pc, m.line, m.column, file⟩ := by
  have hword (n : Nat) : (UInt32.ofNat n).toNat ≤ n := by
    rw [UInt32.toNat_ofNat']
    exact Nat.mod_le _ _
  unfold record
  split
  · rename_i index hfound
    obtain ⟨hlt, -⟩ := Array.findIdx?_eq_some_iff_getElem.1 hfound
    exact ⟨_, Nat.lt_of_le_of_lt (hword index) hlt, Nat.le_refl _, rfl⟩
  · refine ⟨_, Nat.lt_of_le_of_lt (hword t.files.size) ?_, ?_, rfl⟩ <;> simp

/-- Recorded entries name files of the table. -/
theorem file_lt_of_mem_ofMarks {marks : List Mark} {e : Entry} (h : e ∈ (ofMarks marks).entries) :
    e.file.toNat < (ofMarks marks).files.size := by
  have hkeep (t : Table) (ht : ∀ e ∈ t.entries, e.file.toNat < t.files.size) :
      ∀ e ∈ (marks.foldl (fun t m => t.record m.pc m.file m.line m.column) t).entries,
        e.file.toNat <
          (marks.foldl (fun t m => t.record m.pc m.file m.line m.column) t).files.size := by
    clear h
    induction marks generalizing t with
    | nil => exact ht
    | cons m marks ih =>
      obtain ⟨file, hfile, hgrow, hentries⟩ := t.entries_record m
      refine ih _ (fun e he => ?_)
      rw [hentries] at he
      rcases Array.mem_push.1 he with hold | rfl
      · exact Nat.lt_of_lt_of_le (ht e hold) hgrow
      · exact hfile
  exact hkeep {} (by simp) e h

/-- The table has one entry for each call, with the offset, the line and the column given. -/
theorem map_entries_ofMarks (marks : List Mark) :
    (ofMarks marks).entries.toList.map (fun e => (e.pc, e.line, e.column)) =
      marks.map fun m => (m.pc, m.line, m.column) := by
  have hkeep (t : Table) :
      (marks.foldl (fun t m => t.record m.pc m.file m.line m.column) t).entries.toList.map
          (fun e => (e.pc, e.line, e.column)) =
        t.entries.toList.map (fun e => (e.pc, e.line, e.column)) ++
          marks.map fun m => (m.pc, m.line, m.column) := by
    induction marks generalizing t with
    | nil => simp
    | cons m marks ih =>
      obtain ⟨file, -, -, hentries⟩ := t.entries_record m
      rw [List.foldl_cons, ih, hentries]
      simp
  simpa [ofMarks] using hkeep {}

/-- Calls in the order of their offsets give entries in the order of their offsets. -/
theorem isChain_ofMarks {marks : List Mark} (h : marks.Pairwise fun a b => a.pc ≤ b.pc) :
    (start :: (ofMarks marks).entries.toList).IsChain fun a b => a.pc ≤ b.pc := by
  have hpcs : (ofMarks marks).entries.toList.map (·.pc) = marks.map (·.pc) := by
    have hmap := congrArg (List.map Prod.fst) (map_entries_ofMarks marks)
    rwa [List.map_map, List.map_map] at hmap
  have hsorted : (marks.map (·.pc)).Pairwise (· ≤ ·) := List.pairwise_map.2 h
  rw [← hpcs, List.pairwise_map] at hsorted
  refine (List.pairwise_cons.2 ⟨fun e _ => ?_, hsorted⟩).isChain
  rw [UInt32.le_iff_toNat_le]
  exact Nat.zero_le _

/-- What follows the magic word is read exactly if the names fit into their words and the
entries are read. -/
theorem readBody_eq_ok_iff {bs : Bytes} {t : Table} :
    readBody bs = .ok t ↔ Counted.Fits (t.files.map Utf8.encode) ∧
      ∃ rest, bs = Counted.write (t.files.map Utf8.encode) ++ rest ∧
        readEntries t.files.size {} #[] rest = .ok t.entries := by
  unfold readBody
  constructor
  · intro h
    cases hread : Counted.read bs with
    | mk names rest? =>
      simp only [hread] at h
      cases hnames : readNames names with
      | error e =>
        rw [hnames] at h
        cases h
      | ok files =>
        rw [hnames] at h
        cases rest? with
        | none => cases h
        | some rest =>
          cases hentries : readEntries files.size {} #[] rest with
          | error e =>
            change (readEntries files.size {} #[] rest >>= fun entries => _) = _ at h
            rw [hentries] at h
            cases h
          | ok entries =>
            change (readEntries files.size {} #[] rest >>= fun entries => _) = _ at h
            rw [hentries] at h
            cases h
            obtain ⟨hfits, hbytes⟩ := Counted.read_eq_some_iff.1 hread
            rw [readNames_eq_ok_iff.1 hnames] at hfits hbytes
            exact ⟨hfits, rest, hbytes, hentries⟩
  · rintro ⟨hfits, rest, rfl, hentries⟩
    rw [Counted.read_eq_some_iff.2 ⟨hfits, rfl⟩]
    simp only [readNames_eq_ok_iff.2 rfl]
    change (readEntries t.files.size {} #[] rest >>= fun entries => _) = _
    rw [hentries]
    rfl

/-- What follows the magic word of a table that was written. -/
theorem ofBytes_toBytes (t : Table) :
    ofBytes t.toBytes = readBody (Counted.write (t.files.map Utf8.encode) ++
      writeEntries {} t.entries.toList) := by
  have hcut : Bytes.cut? 4 t.toBytes = some (magic,
      Counted.write (t.files.map Utf8.encode) ++ writeEntries {} t.entries.toList) := by
    unfold toBytes
    rw [List.append_assoc]
    exact Bytes.cut?_append magic _
  unfold ofBytes
  rw [hcut]
  exact if_pos rfl

/-- A table is read back exactly if its names fit into their words and its entries are read
back. -/
theorem ofBytes_toBytes_eq_ok_iff (t : Table) :
    ofBytes t.toBytes = .ok t ↔ Counted.Fits (t.files.map Utf8.encode) ∧
      readEntries t.files.size {} #[] (writeEntries {} t.entries.toList) = .ok t.entries := by
  rw [ofBytes_toBytes, readBody_eq_ok_iff]
  constructor
  · rintro ⟨hfits, rest, hbytes, hentries⟩
    rw [List.append_cancel_left hbytes]
    exact ⟨hfits, hentries⟩
  · rintro ⟨hfits, hentries⟩
    exact ⟨hfits, _, rfl, hentries⟩

/-- A table that was recorded in the order of offsets is read back from its bytes exactly if it
has fewer than 2¹⁶ files, each with a name shorter than 2¹⁶ bytes, and every difference of
consecutive lines and of consecutive columns, from 0 on, is a signed number of 32 bits. -/
theorem ofBytes_toBytes_ofMarks_iff {marks : List Mark}
    (h : marks.Pairwise fun a b => a.pc ≤ b.pc) :
    ofBytes (ofMarks marks).toBytes = .ok (ofMarks marks) ↔
      (ofMarks marks).files.size < 2 ^ 16 ∧
      (∀ name ∈ (ofMarks marks).files, (Utf8.encode name).length < 2 ^ 16) ∧
      (start :: (ofMarks marks).entries.toList).IsChain Near := by
  have hentries := readEntries_writeEntries_iff (isChain_ofMarks h)
    (fun e he => file_lt_of_mem_ofMarks (Array.mem_toList_iff.1 he)) #[]
  have hzero : start.origin = {} := rfl
  simp only [hzero, Array.toArray_toList, Array.empty_append] at hentries
  rw [ofBytes_toBytes_eq_ok_iff, hentries]
  constructor
  · rintro ⟨hfits, hnear⟩
    refine ⟨by simpa using hfits.count, fun name hname => ?_, hnear⟩
    exact hfits.each _ (Array.mem_map_of_mem hname)
  · rintro ⟨hcount, heach, hnear⟩
    refine ⟨⟨by simpa using hcount, fun bs hbs => ?_⟩, hnear⟩
    obtain ⟨name, hname, rfl⟩ := Array.mem_map.1 hbs
    exact heach name hname

/-- Positions in two files. The line of the second is as far above the first one as a
difference can be, the third as far below that, and the last one step farther above again. -/
def sample : List Mark :=
  [⟨0, "main", 1, 1⟩, ⟨6, "main", 2147483648, 3⟩, ⟨6, "lib", 0, 9⟩, ⟨20, "main", 2147483648, 1⟩]

/-- The first three positions are read back, and all four are not. -/
theorem ofBytes_toBytes_sample :
    ofBytes (ofMarks (sample.take 3)).toBytes = .ok (ofMarks (sample.take 3)) ∧
      ofBytes (ofMarks sample).toBytes ≠ .ok (ofMarks sample) := by
  constructor
  · exact (ofBytes_toBytes_ofMarks_iff (by decide)).2 (by decide +kernel)
  · intro h
    obtain ⟨-, -, hnear⟩ := (ofBytes_toBytes_ofMarks_iff (by decide)).1 h
    revert hnear
    decide +kernel

end Table

end Debug

end Swarm
