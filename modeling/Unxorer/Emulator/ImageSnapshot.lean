import Unxorer.Emulator.Run
import Unxorer.Ida.ImportResolver

/-!
# The image of the analysed program

Before anything is emulated the bytes of the program are read from the database into a buffer of
whole pages. The bytes of the first and the last page that do not belong to the program, and those
the database does not give, are zero.

## Main definitions

* `Database` — what the plugin asks of the database
* `captureImageSnapshot` — `capture_image_snapshot`
* `CaptureLaw` — what holds of the buffer

## Main results

* `captureLaw` — the law holds unless the pages of the program are the whole address space
-/

set_option autoImplicit false

namespace Unxorer

open WriteTracker

/-- What the plugin asks of IDA's database. -/
structure Database where
  minEa : Addr
  maxEa : Addr
  /-- The bytes `get_bytes` has put into the buffer, none where it returns no positive number. -/
  getBytes : Addr → ℕ → List Byte
  getBytes_length : ∀ a n, (getBytes a n).length ≤ n
  /-- The imports of all modules in the order of their enumeration. -/
  imports : List (Addr × String)
  funcs : List Addr
  decodeInsn : Addr → Option Insn

/-- Bytes written into a buffer from an index on. -/
def overwrite (buffer : List Byte) (i : ℕ) (bytes : List Byte) : List Byte :=
  buffer.take i ++ bytes ++ buffer.drop (i + bytes.length)

namespace Database

variable (db : Database)

/-- The bytes of the program, as far as the database gives them. -/
def bytes : List Byte := db.getBytes db.minEa (db.maxEa - db.minEa).toNat

/-- The address belongs to the program, and the database gives this byte for it. -/
def Holds (x : Addr) (value : Byte) : Prop :=
  db.minEa ≤ x ∧ x < db.maxEa ∧ db.bytes[(x - db.minEa).toNat]? = some value

end Database

/-- `capture_image_snapshot`. -/
def captureImageSnapshot (db : Database) : Option ImageSnapshot :=
  if db.minEa = badAddr ∨ db.maxEa = badAddr ∨ db.maxEa ≤ db.minEa then none
  else
    let mapStart := pageOf db.minEa
    let mapEnd := pageOf (db.maxEa + 0x1000 - 1)
    let mapSize := mapEnd - mapStart
    let imageOffset := db.minEa - mapStart
    if db.bytes = [] then none
    else some {
      imageMin := db.minEa
      imageMax := db.maxEa
      mapStart := mapStart
      mapSize := mapSize
      imageBackup := overwrite (List.replicate mapSize.toNat 0) imageOffset.toNat db.bytes
      importMap := ImportResolver.buildImportMap db.imports db.funcs db.decodeInsn }

/-- What holds of the buffer: it is made of the pages the program touches, the bytes of the program
are in their places, and all others are zero. -/
structure CaptureLaw (db : Database) (image : ImageSnapshot) : Prop where
  bounds : image.imageMin = db.minEa ∧ image.imageMax = db.maxEa
  pages : 0x1000 ∣ image.mapStart.toNat ∧ 0x1000 ∣ image.mapSize.toNat
  length : image.imageBackup.length = image.mapSize.toNat
  covers : ∀ x, db.minEa ≤ x → x < db.maxEa → (x - image.mapStart).toNat < image.mapSize.toNat
  tight : ∀ x, (x - image.mapStart).toNat < image.mapSize.toNat →
    ∃ y, db.minEa ≤ y ∧ y < db.maxEa ∧ pageOf y = pageOf x
  held : ∀ x value, db.Holds x value → image.contents (x - image.mapStart).toNat = value
  padded : ∀ x, (x - image.mapStart).toNat < image.mapSize.toNat → (∀ value, ¬ db.Holds x value) →
    image.contents (x - image.mapStart).toNat = 0

/-! ### The buffer -/

section Overwrite

variable {n i : ℕ} {bytes : List Byte}

theorem length_overwrite (fits : i + bytes.length ≤ n) :
    (overwrite (List.replicate n 0) i bytes).length = n := by
  simp only [overwrite, List.length_append, List.length_take, List.length_drop,
    List.length_replicate]
  omega

/-- A byte of the buffer is the one written there, and otherwise zero. -/
theorem getD_overwrite (fits : i + bytes.length ≤ n) (k : ℕ) :
    (overwrite (List.replicate n 0) i bytes)[k]?.getD 0 =
      if i ≤ k then bytes[k - i]?.getD 0 else 0 := by
  have front : ((List.replicate n (0 : Byte)).take i).length = i := by
    rw [List.length_take, List.length_replicate]
    omega
  rw [overwrite, List.append_assoc]
  by_cases before : k < i
  · rw [List.getElem?_append_left (by omega), if_neg (by omega), List.take_replicate,
      List.getElem?_replicate]
    split_ifs <;> rfl
  · rw [List.getElem?_append_right (by omega), front, if_pos (by omega)]
    by_cases inside : k - i < bytes.length
    · rw [List.getElem?_append_left inside]
    · rw [List.getElem?_append_right (by omega), List.drop_replicate, List.getElem?_replicate,
        List.getElem?_eq_none (Nat.le_of_not_lt inside)]
      split_ifs <;> rfl

end Overwrite

/-! ### The pages -/

section Pages

/-- The end of the pages, rounded up; it is zero where the last page is the topmost. -/
theorem toNat_pageOf_end (hi : Addr) : (pageOf (hi + 0x1000 - 1)).toNat =
    (hi.toNat + 0xFFF) % 2 ^ 64 / 0x1000 * 0x1000 := by
  have sum : hi + 0x1000 - 1 = hi + 0xFFF := by
    rw [add_sub_assoc]
    rfl
  rw [toNat_pageOf, sum, BitVec.toNat_add]
  rfl

theorem toNat_sub_pageOf {a x : Addr} (above : pageOf a ≤ x) :
    (x - pageOf a).toNat = x.toNat - a.toNat / 0x1000 * 0x1000 := by
  rw [BitVec.toNat_sub_of_le above, toNat_pageOf]

theorem pageOf_le_of_le {a x : Addr} (above : a ≤ x) : pageOf a ≤ x := by
  rw [BitVec.le_def] at above ⊢
  rw [toNat_pageOf]
  omega

/-- The pages from `lo` up to `hi` do not make up the whole address space. -/
structure Part (lo hi : Addr) : Prop where
  below : lo < hi
  proper : pageOf (hi + 0x1000 - 1) - pageOf lo ≠ 0

namespace Part

variable {lo hi x : Addr}

/-- The number of bytes of the pages. -/
theorem toNat_size (part : Part lo hi) : (pageOf (hi + 0x1000 - 1) - pageOf lo).toNat =
    (hi.toNat + 0xFFF) / 0x1000 * 0x1000 - lo.toNat / 0x1000 * 0x1000 := by
  have nonzero : (pageOf (hi + 0x1000 - 1) - pageOf lo).toNat ≠ 0 :=
    fun zero => part.proper (BitVec.eq_of_toNat_eq zero)
  have bound := hi.isLt
  have below := part.below
  rw [BitVec.lt_def] at below
  rw [BitVec.toNat_sub, toNat_pageOf_end, toNat_pageOf] at nonzero ⊢
  omega

/-- An address of the pages lies between their first and their last byte. -/
theorem bounds (part : Part lo hi)
    (inside : (x - pageOf lo).toNat < (pageOf (hi + 0x1000 - 1) - pageOf lo).toNat) :
    pageOf lo ≤ x ∧ x.toNat < (hi.toNat + 0xFFF) / 0x1000 * 0x1000 := by
  have below := part.below
  have upper := x.isLt
  rw [BitVec.lt_def] at below
  rw [part.toNat_size, BitVec.toNat_sub, toNat_pageOf] at inside
  rw [BitVec.le_def, toNat_pageOf]
  omega

/-- The addresses from `lo` up to `hi` are on the pages. -/
theorem inside (part : Part lo hi) (lower : lo ≤ x) (upper : x < hi) :
    (x - pageOf lo).toNat < (pageOf (hi + 0x1000 - 1) - pageOf lo).toNat := by
  rw [toNat_sub_pageOf (pageOf_le_of_le lower), part.toNat_size]
  rw [BitVec.le_def] at lower
  rw [BitVec.lt_def] at upper
  omega

/-- Each of the pages has an address from `lo` up to `hi`: the first one, the last one or the
given one itself. -/
theorem exists_on_page (part : Part lo hi)
    (inside : (x - pageOf lo).toNat < (pageOf (hi + 0x1000 - 1) - pageOf lo).toNat) :
    ∃ y, lo ≤ y ∧ y < hi ∧ pageOf y = pageOf x := by
  obtain ⟨lower, upper⟩ := part.bounds inside
  rw [BitVec.le_def, toNat_pageOf] at lower
  have below := part.below
  have page (y : Addr) (same : y.toNat / 0x1000 = x.toNat / 0x1000) : pageOf y = pageOf x :=
    BitVec.eq_of_toNat_eq (by rw [toNat_pageOf, toNat_pageOf, same])
  by_cases first : x < lo
  · refine ⟨lo, BitVec.le_refl _, below, page _ ?_⟩
    rw [BitVec.lt_def] at first
    omega
  by_cases last : x < hi
  · exact ⟨x, BitVec.not_lt.mp first, last, rfl⟩
  rw [BitVec.lt_def] at first last below
  have previous : (hi - 1).toNat = hi.toNat - 1 :=
    BitVec.toNat_sub_of_le (by rw [BitVec.le_def]; change 1 ≤ _; omega)
  refine ⟨hi - 1, ?_, ?_, page _ ?_⟩
  · rw [BitVec.le_def]
    omega
  · rw [BitVec.lt_def]
    omega
  · omega

end Part

end Pages

/-! ### The law -/

namespace Database

variable {db : Database}

theorem length_bytes (below : db.minEa < db.maxEa) :
    db.bytes.length ≤ db.maxEa.toNat - db.minEa.toNat := by
  refine (db.getBytes_length _ _).trans_eq ?_
  exact BitVec.toNat_sub_of_le (BitVec.le_of_lt below)

/-- The database gives bytes of the program only. -/
theorem holds_of_getElem? (below : db.minEa < db.maxEa) {x : Addr} {value : Byte}
    (lower : db.minEa ≤ x) (found : db.bytes[(x - db.minEa).toNat]? = some value) :
    db.Holds x value := by
  obtain ⟨short, -⟩ := List.getElem?_eq_some_iff.mp found
  have length := length_bytes below
  refine ⟨lower, ?_, found⟩
  rw [BitVec.toNat_sub_of_le lower] at short
  rw [BitVec.le_def] at lower
  rw [BitVec.lt_def]
  omega

/-- The bytes of the program fit into the buffer. -/
theorem fits (part : Part db.minEa db.maxEa) :
    (db.minEa - pageOf db.minEa).toNat + db.bytes.length ≤
      (pageOf (db.maxEa + 0x1000 - 1) - pageOf db.minEa).toNat := by
  have below := part.below
  have length := length_bytes below
  rw [BitVec.lt_def] at below
  rw [toNat_sub_pageOf (pageOf_le_of_le (BitVec.le_refl _)), part.toNat_size]
  omega

/-- The buffer at an address of the pages. -/
theorem getD_buffer (part : Part db.minEa db.maxEa) {x : Addr} (above : pageOf db.minEa ≤ x) :
    (overwrite (List.replicate (pageOf (db.maxEa + 0x1000 - 1) - pageOf db.minEa).toNat 0)
      (db.minEa - pageOf db.minEa).toNat db.bytes)[(x - pageOf db.minEa).toNat]?.getD 0 =
    if db.minEa ≤ x then db.bytes[(x - db.minEa).toNat]?.getD 0 else 0 := by
  rw [getD_overwrite (fits part), toNat_sub_pageOf above,
    toNat_sub_pageOf (pageOf_le_of_le (BitVec.le_refl _))]
  rw [BitVec.le_def, toNat_pageOf] at above
  by_cases inside : db.minEa ≤ x
  · have lower := inside
    rw [BitVec.le_def] at lower
    rw [if_pos inside, if_pos (by omega), BitVec.toNat_sub_of_le inside]
    congr 2
    omega
  · have lower := inside
    rw [BitVec.le_def] at lower
    rw [if_neg inside, if_neg (by omega)]

end Database

/-- The law holds, unless the pages from the first to the last byte of the program are the whole
address space; then their number of bytes is zero modulo `2 ^ 64`. -/
theorem captureLaw {db : Database} {image : ImageSnapshot}
    (captured : captureImageSnapshot db = some image) (proper : image.mapSize ≠ 0) :
    CaptureLaw db image := by
  rw [captureImageSnapshot] at captured
  split_ifs at captured with invalid empty
  cases captured
  obtain ⟨-, -, below⟩ : db.minEa ≠ badAddr ∧ db.maxEa ≠ badAddr ∧ ¬ db.maxEa ≤ db.minEa := by
    simpa only [not_or] using invalid
  have part : Part db.minEa db.maxEa := ⟨BitVec.not_le.mp below, proper⟩
  refine ⟨⟨rfl, rfl⟩, ⟨dvd_pageOf _, ?_⟩, length_overwrite (Database.fits part),
    fun x => part.inside, fun x => part.exists_on_page, ?_, ?_⟩
  · rw [part.toNat_size]
    exact Nat.dvd_sub (Nat.dvd_mul_left _ _) (Nat.dvd_mul_left _ _)
  · rintro x value ⟨lower, -, held⟩
    refine (Database.getD_buffer part (pageOf_le_of_le lower)).trans ?_
    rw [if_pos lower, held, Option.getD_some]
  · intro x inside missing
    refine (Database.getD_buffer part (part.bounds inside).1).trans ?_
    by_cases lower : db.minEa ≤ x
    · rw [if_pos lower]
      cases found : db.bytes[(x - db.minEa).toNat]? with
      | none => rfl
      | some value =>
        exact absurd (Database.holds_of_getElem? part.below lower found) (missing value)
    · rw [if_neg lower]

/-- A byte of the buffer that is not zero is one of the program. -/
theorem CaptureLaw.holds {db : Database} {image : ImageSnapshot} (law : CaptureLaw db image)
    {x : Addr} (inside : (x - image.mapStart).toNat < image.mapSize.toNat)
    (nonzero : image.contents (x - image.mapStart).toNat ≠ 0) :
    db.Holds x (image.contents (x - image.mapStart).toNat) := by
  by_cases held : ∃ value, db.Holds x value
  · obtain ⟨value, held⟩ := held
    rwa [law.held x value held]
  · exact absurd (law.padded x inside (not_exists.mp held)) nonzero

end Unxorer
