import FirebirdCore.Lib.Buffer

/-!
# Clumps on header pages

A clump is a type, a length and an entry. The clumps of a header page follow each other from `hdr_data`
on and end with `HDR_end`, the offset of which is `hdr_end`. More clumps are on the header pages that
follow.
-/
namespace FirebirdCore.Pag
open FirebirdCore.Buffer

def HDR_end : UInt8 := 0

/-- The offset of `hdr_data`. -/
def HDR_SIZE : ℕ := 132

def HEADER_PAGE : ℕ := 0

/-- `hdr_data` is the rest of the page. -/
structure HeaderPage where
  hdr_next_page : ℕ
  hdr_end : ℕ
  hdr_data : List UInt8
  deriving DecidableEq, Repr

inductive ClumpOper where
  | CLUMP_ADD
  | CLUMP_REPLACE
  | CLUMP_REPLACE_ONLY
  deriving DecidableEq, Repr

/-- `noPage`: there is no header page with this number. `outside`: a byte outside of `hdr_data` would be
read or written. `endless`: so many pages have been followed. -/
inductive HeaderError where
  | readOnlyDatabase
  | noPage
  | outside
  | endless
  deriving DecidableEq, Repr

structure Database where
  dbb_page_size : ℕ
  readOnly : Bool

abbrev HeaderPages := ℕ → Option HeaderPage

def HeaderPages.fetch (pages : HeaderPages) (page : ℕ) : Except HeaderError HeaderPage :=
  match pages page with
  | some header => .ok header
  | none => .error .noPage

/-- The loop of `find_type` over one page, at the byte `p`: where the last clump of the type is, and
where `HDR_end` is. -/
def scan (type : UInt8) : ℕ → List UInt8 → ℕ → Option ℕ → Except HeaderError (Option ℕ × ℕ)
  | 0, _, _, _ => .error .outside
  | _ + 1, [], _, _ => .error .outside
  | fuel + 1, t :: tail, p, q =>
      if t = HDR_end then .ok (q, p)
      else
        match tail with
        | [] => .error .outside
        | length :: tail =>
            scan type fuel (tail.drop length.toNat) (p + 2 + length.toNat)
              (if t = type then some p else q)

/-- The page on which the search ends, and the clump found there with the end of the clumps. -/
def find_type (pages : HeaderPages) (type : UInt8) : ℕ → ℕ → Except HeaderError (ℕ × Option (ℕ × ℕ))
  | 0, _ => .error .endless
  | fuel + 1, page =>
      match pages.fetch page with
      | .error e => .error e
      | .ok header =>
          match scan type (header.hdr_data.length + 1) header.hdr_data 0 none with
          | .error e => .error e
          | .ok (some q, p) => .ok (page, some (q, p))
          | .ok (none, _) =>
              if header.hdr_next_page ≠ 0 then find_type pages type fuel header.hdr_next_page
              else .ok (page, none)

/-- The bytes of a clump. -/
def clump (type : UInt8) (entry : List UInt8) : List UInt8 :=
  type :: UInt8.ofNat entry.length :: entry

/-- A clump is written over `HDR_end`. In front of `hdr_data` it would destroy the header. -/
def HeaderPage.put (header : HeaderPage) (type : UInt8) (entry : List UInt8) :
    Except HeaderError HeaderPage :=
  if header.hdr_end < HDR_SIZE then .error .outside
  else
    .ok { header with
      hdr_data := blit header.hdr_data (header.hdr_end - HDR_SIZE) (clump type entry ++ [HDR_end])
      hdr_end := header.hdr_end + (2 + entry.length) }

/-- A new page is all zeros before it becomes a header page. -/
def newHeader (dbb : Database) (type : UInt8) (entry : List UInt8) : HeaderPage where
  hdr_next_page := 0
  hdr_end := HDR_SIZE + (2 + entry.length)
  hdr_data := blit (List.replicate (dbb.dbb_page_size - HDR_SIZE) 0) 0 (clump type entry ++ [HDR_end])

/-- `newPage` is what `DPM_allocate` would return. -/
def find_clump_space (dbb : Database) (newPage : ℕ) (type : UInt8) (entry : List UInt8) :
    ℕ → HeaderPages → ℕ → Except HeaderError HeaderPages
  | 0, _, _ => .error .endless
  | fuel + 1, pages, page =>
      match pages.fetch page with
      | .error e => .error e
      | .ok header =>
          if (dbb.dbb_page_size : ℤ) - header.hdr_end > 2 + entry.length then
            match header.put type entry with
            | .error e => .error e
            | .ok header => .ok (Function.update pages page (some header))
          else if header.hdr_next_page ≠ 0 then
            find_clump_space dbb newPage type entry fuel pages header.hdr_next_page
          else
            .ok (Function.update (Function.update pages newPage (some (newHeader dbb type entry))) page
              (some { header with hdr_next_page := newPage }))

/-- `memmove` of what is behind the clump at `entry_p`, up to `clump_end`. -/
def HeaderPage.remove (header : HeaderPage) (entry_p clump_end oldLen : ℕ) : HeaderPage :=
  let r := entry_p + oldLen
  let shift := clump_end - r + 1
  { header with hdr_data := blit header.hdr_data entry_p ((header.hdr_data.drop r).take shift) }

/-- `end_addr` points into the first page all the time, wherever the clump is found. -/
def add_clump (dbb : Database) (newPage fuel : ℕ) (pages : HeaderPages) (type : UInt8)
    (entry : List UInt8) (mode : ClumpOper) : Except HeaderError HeaderPages :=
  if dbb.readOnly then .error .readOnlyDatabase
  else if mode = .CLUMP_ADD then find_clump_space dbb newPage type entry fuel pages HEADER_PAGE
  else
    match find_type pages type fuel HEADER_PAGE with
    | .error e => .error e
    | .ok (page, none) =>
        if mode = .CLUMP_REPLACE_ONLY then .ok pages
        else find_clump_space dbb newPage type entry fuel pages page
    | .ok (page, some (entry_p, clump_end)) =>
        match pages.fetch page with
        | .error e => .error e
        | .ok found =>
            let oldLen := (found.hdr_data.getD (entry_p + 1) 0).toNat + 2
            if oldLen - 2 = entry.length then
              .ok (Function.update pages page
                (some { found with hdr_data := blit found.hdr_data (entry_p + 2) entry }))
            else
              let pages := Function.update pages HEADER_PAGE
                ((pages HEADER_PAGE).map fun header =>
                  { header with hdr_end := (header.hdr_end + 65536 - oldLen) % 65536 })
              let pages := Function.update pages page
                ((pages page).map fun header => header.remove entry_p clump_end oldLen)
              find_clump_space dbb newPage type entry fuel pages HEADER_PAGE

end FirebirdCore.Pag
