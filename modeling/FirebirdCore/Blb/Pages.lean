import Mathlib.Data.List.Basic
import Mathlib.Data.List.Nodup
import Mathlib.Tactic

/-!
# The pages of a blob

`insert_page` enters a page into the vector of a blob or into one of its pointer pages, and
`get_next_page` reads the pages one by one.
-/
namespace FirebirdCore.Blb

def MIN_PAGE_SIZE : ℕ := 4096

def MAX_PAGE_SIZE : ℕ := 16384

structure Database where
  dbb_page_size : ℕ
  min_le : MIN_PAGE_SIZE ≤ dbb_page_size
  le_max : dbb_page_size ≤ MAX_PAGE_SIZE

/-- `BLP_SIZE`, the header of a blob page. -/
def BLP_SIZE : ℕ := 28

/-- The header and one slot of a data page, and the header of a blob. -/
def RECORD_OVERHEAD : ℕ := 28 + 4 + 32

namespace Database

def blb_clump_size (dbb : Database) : ℕ := dbb.dbb_page_size - RECORD_OVERHEAD

/-- The pages that the vector of a blob at level 1 has room for. -/
def blb_max_pages (dbb : Database) : ℕ := dbb.blb_clump_size / 4

/-- The page numbers on a pointer page. -/
def blb_pointers (dbb : Database) : ℕ := (dbb.dbb_page_size - BLP_SIZE) / 4

theorem blb_pointers_pos (dbb : Database) : 0 < dbb.blb_pointers := by
  have := dbb.min_le
  unfold MIN_PAGE_SIZE at this
  unfold blb_pointers BLP_SIZE
  omega

theorem blb_max_pages_lt (dbb : Database) : dbb.blb_max_pages < dbb.blb_pointers := by
  have := dbb.min_le
  unfold MIN_PAGE_SIZE at this
  unfold blb_max_pages blb_pointers blb_clump_size RECORD_OVERHEAD BLP_SIZE
  omega

theorem blb_max_pages_pos (dbb : Database) : 0 < dbb.blb_max_pages := by
  have := dbb.min_le
  unfold MIN_PAGE_SIZE at this
  unfold blb_max_pages blb_clump_size RECORD_OVERHEAD
  omega

theorem blb_pointers_lt (dbb : Database) : dbb.blb_pointers < 2 ^ 16 := by
  have := dbb.le_max
  unfold MAX_PAGE_SIZE at this
  unfold blb_pointers BLP_SIZE
  omega

end Database

/-- The area behind the header is `blp_page` on a pointer page and `blp_data` on another one. -/
structure blob_page where
  blp_pointers : Bool
  blp_lead_page : ℕ
  blp_sequence : ℕ
  blp_length : ℕ
  blp_page : List ℕ
  blp_data : List UInt8
  deriving DecidableEq, Repr

/-- The pages in use, and those that are allocated next. -/
structure Disk where
  pages : ℕ → Option blob_page
  free : List ℕ
  nodup : free.Nodup
  unused : ∀ n ∈ free, pages n = none

inductive Refusal where
  | blobtoobig
  | corrupt
  | outOfPages
  deriving DecidableEq, Repr

structure blb where
  blb_lead_page : ℕ
  blb_sequence : ℕ
  blb_max_sequence : ℕ
  blb_level : ℕ
  blb_pages : List ℕ
  deriving DecidableEq, Repr

variable (dbb : Database)

/-- A page as it is formatted by `DPM_allocate`. -/
def formatted : blob_page :=
  ⟨false, 0, 0, 0, List.replicate dbb.blb_pointers 0, []⟩

namespace Disk

def DPM_allocate (disk : Disk) : Option (ℕ × Disk) :=
  match h : disk.free with
  | [] => none
  | n :: free =>
      some (n, {
        pages := Function.update disk.pages n (some (formatted dbb))
        free
        nodup := by
          have hnodup := disk.nodup
          rw [h] at hnodup
          exact hnodup.of_cons
        unused := by
          intro m hm
          have hnodup := disk.nodup
          rw [h] at hnodup
          have hne : m ≠ n := by
            rintro rfl
            exact (List.nodup_cons.1 hnodup).1 hm
          rw [Function.update_of_ne hne]
          exact disk.unused m (by rw [h]; exact List.mem_cons_of_mem _ hm) })

/-- The page is fetched, changed and marked. -/
def modify (disk : Disk) (n : ℕ) (f : blob_page → blob_page) : Disk where
  pages := Function.update disk.pages n ((disk.pages n).map f)
  free := disk.free
  nodup := disk.nodup
  unused := by
    intro m hm
    by_cases heq : m = n
    · subst heq
      rw [Function.update_self, disk.unused m hm]
      rfl
    · rw [Function.update_of_ne heq]
      exact disk.unused m hm

end Disk

/-- `resize` of a vector. -/
def resize (vector : List ℕ) (count : ℕ) : List ℕ :=
  (vector ++ List.replicate count 0).take count

/-- A blob page as it is written. -/
def dataPage (lead sequence : ℕ) (image : List UInt8) : blob_page :=
  { formatted dbb with
    blp_lead_page := lead
    blp_sequence := sequence
    blp_length := image.length
    blp_data := image }

/-- The vector has overflowed. It is moved to a pointer page. -/
def to_level_2 (b : blb) (disk : Disk) : Option (blb × Disk) :=
  match disk.DPM_allocate dbb with
  | none => none
  | some (n, disk) =>
      some ({ b with blb_level := 2, blb_pages := (resize b.blb_pages 1).set 0 n },
        disk.modify n fun page =>
          { page with
            blp_pointers := true
            blp_lead_page := b.blb_lead_page
            blp_length := b.blb_pages.length * 4
            blp_page := b.blb_pages ++ page.blp_page.drop b.blb_pages.length })

/-- The pointer page for the sequence of the blob. -/
def pointer_page (b : blb) (disk : Disk) : Except Refusal (ℕ × blb × Disk) :=
  let l := b.blb_sequence / dbb.blb_pointers % 2 ^ 16
  match b.blb_pages[l]? with
  | some n => if (disk.pages n).isNone then .error .corrupt else .ok (n, b, disk)
  | none =>
      if l < dbb.blb_pointers then
        match disk.DPM_allocate dbb with
        | none => .error .outOfPages
        | some (n, disk) =>
            .ok (n, { b with blb_pages := (resize b.blb_pages (l + 1)).set l n },
              disk.modify n fun page =>
                { page with blp_pointers := true, blp_lead_page := b.blb_lead_page })
      else .error .blobtoobig

/-- The page number is stuck in its slot. -/
def insert_pointer (page_number : ℕ) (b : blb) (disk : Disk) : Except Refusal (blb × Disk) :=
  match pointer_page dbb b disk with
  | .error e => .error e
  | .ok (n, b, disk) =>
      let l := b.blb_sequence % dbb.blb_pointers
      .ok (b, disk.modify n fun page =>
        { page with blp_page := page.blp_page.set l page_number, blp_length := (l + 1) * 4 })

/-- The part of `insert_page` that enters the page number. -/
def insert_number (page_number : ℕ) (b : blb) (disk : Disk) : Except Refusal (blb × Disk) :=
  if b.blb_level = 1 ∧ b.blb_sequence < dbb.blb_max_pages then
    let vector := if b.blb_sequence ≥ b.blb_pages.length then resize b.blb_pages (b.blb_sequence + 1)
      else b.blb_pages
    .ok ({ b with blb_pages := vector.set b.blb_sequence page_number }, disk)
  else
    match if b.blb_level = 1 then to_level_2 dbb b disk else some (b, disk) with
    | none => .error .outOfPages
    | some (b, disk) => insert_pointer dbb page_number b disk

/-- `image` is what the buffer holds behind the header. The page number is that of the new page. -/
def insert_page (image : List UInt8) (b : blb) (disk : Disk) : Except Refusal (ℕ × blb × Disk) :=
  let b := { b with blb_max_sequence := b.blb_sequence }
  match disk.DPM_allocate dbb with
  | none => .error .outOfPages
  | some (page_number, disk) =>
      let b := if b.blb_sequence = 0 then { b with blb_lead_page := page_number } else b
      let disk := disk.modify page_number fun page =>
        { page with
          blp_sequence := b.blb_sequence
          blp_lead_page := b.blb_lead_page
          blp_length := image.length
          blp_data := image }
      match insert_number dbb page_number b disk with
      | .error e => .error e
      | .ok (b, disk) => .ok (page_number, b, disk)

/-- What `BLB_put_segment` does with a page that is full. A blob at level 0 has got to level 1 before. -/
def put_page (image : List UInt8) (b : blb) (disk : Disk) : Except Refusal (ℕ × blb × Disk) :=
  let b := if b.blb_level = 0 then { b with blb_level := 1, blb_pages := [] } else b
  match insert_page dbb image b disk with
  | .error e => .error e
  | .ok (page_number, b, disk) =>
      .ok (page_number, { b with blb_sequence := b.blb_sequence + 1 }, disk)

/-- A blob that is written page by page. -/
def put_pages : List (List UInt8) → blb → Disk → Except Refusal (List ℕ × blb × Disk)
  | [], b, disk => .ok ([], b, disk)
  | image :: images, b, disk =>
      match put_page dbb image b disk with
      | .error e => .error e
      | .ok (page_number, b, disk) =>
          match put_pages images b disk with
          | .error e => .error e
          | .ok (page_numbers, b, disk) => .ok (page_number :: page_numbers, b, disk)

/-- `allocate_blob`. -/
def created : blb := ⟨0, 0, 0, 0, []⟩

/-- A blob that is opened for reading gets the header and the vector of the one that was written. -/
def opened (b : blb) : blb :=
  { created with
    blb_lead_page := b.blb_lead_page
    blb_max_sequence := b.blb_max_sequence
    blb_level := b.blb_level
    blb_pages := b.blb_pages }

/-- The page number for the sequence of the blob. -/
def page_number (disk : Disk) (b : blb) : Option ℕ :=
  if b.blb_level = 1 then b.blb_pages[b.blb_sequence]?
  else
    match b.blb_pages[b.blb_sequence / dbb.blb_pointers]? with
    | none => none
    | some n => (disk.pages n).bind fun page => page.blp_page[b.blb_sequence % dbb.blb_pointers]?

/-- The next page with its number. A page number from outside of the vector or of the page is taken for
the number of no page. -/
def get_next_page (disk : Disk) (b : blb) : Except Refusal (Option (ℕ × blob_page) × blb) :=
  if b.blb_level = 0 ∨ b.blb_sequence > b.blb_max_sequence then .ok (none, b)
  else
    match page_number dbb disk b with
    | none => .error .corrupt
    | some n =>
        match disk.pages n with
        | none => .error .corrupt
        | some page =>
            if page.blp_sequence ≠ b.blb_sequence then .error .corrupt
            else .ok (some (n, page), { b with blb_sequence := b.blb_sequence + 1 })

/-- The pages that are got until there is no next page, with at most `calls` calls. -/
def get_pages (disk : Disk) : ℕ → blb → Except Refusal (Option (List (ℕ × blob_page)))
  | 0, _ => .ok none
  | calls + 1, b =>
      match get_next_page dbb disk b with
      | .error e => .error e
      | .ok (none, _) => .ok (some [])
      | .ok (some page, b) =>
          match get_pages disk calls b with
          | .error e => .error e
          | .ok pages => .ok (pages.map (page :: ·))

end FirebirdCore.Blb
