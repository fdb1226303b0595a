import FirebirdCore.Blb.Pages
import FirebirdCore.Lib.Paged

/-!
# A blob as a list of pages

The vector of a blob and its pointer pages hold a list to which every inserted page is appended.
-/
namespace FirebirdCore.Blb

open Lib

variable {dbb : Database} {disk disk' : Disk} {b : blb} {n : ℕ}

/-! ## Pages -/

/-- A page that was not in use is written. -/
structure Allocated (disk : Disk) (n : ℕ) (page : blob_page) (disk' : Disk) : Prop where
  unused : disk.pages n = none
  pages : disk'.pages = Function.update disk.pages n (some page)
  free : disk.free = n :: disk'.free

theorem DPM_allocate_none (h : disk.DPM_allocate dbb = none) : disk.free = [] := by
  unfold Disk.DPM_allocate at h
  split at h
  · assumption
  · cases h

theorem DPM_allocate_some (h : disk.DPM_allocate dbb = some (n, disk')) :
    Allocated disk n (formatted dbb) disk' := by
  unfold Disk.DPM_allocate at h
  split at h
  · cases h
  · rename_i m free hfree
    cases h
    exact ⟨disk.unused _ (by rw [hfree]; exact List.mem_cons_self), rfl, hfree⟩

@[simp] theorem modify_pages (disk : Disk) (n : ℕ) (f : blob_page → blob_page) :
    (disk.modify n f).pages = Function.update disk.pages n ((disk.pages n).map f) := rfl

@[simp] theorem modify_free (disk : Disk) (n : ℕ) (f : blob_page → blob_page) :
    (disk.modify n f).free = disk.free := rfl

theorem Allocated.modify {page : blob_page} (h : Allocated disk n page disk')
    (f : blob_page → blob_page) : Allocated disk n (f page) (disk'.modify n f) where
  unused := h.unused
  pages := by
    rw [modify_pages, h.pages]
    simp
  free := h.free

theorem Allocated.pages_self {page : blob_page} (h : Allocated disk n page disk') :
    disk'.pages n = some page := by
  rw [h.pages, Function.update_self]

/-- The pages that are in use stay. -/
theorem Allocated.pages_of_some {page page' : blob_page} (h : Allocated disk n page disk') {m : ℕ}
    (hm : disk.pages m = some page') : disk'.pages m = some page' := by
  have hne : m ≠ n := by
    rintro rfl
    rw [h.unused] at hm
    cases hm
  rw [h.pages, Function.update_of_ne hne, hm]

theorem resize_succ_set (vector : List ℕ) (n : ℕ) :
    (resize vector (vector.length + 1)).set vector.length n = vector ++ [n] := by
  have hresize : resize vector (vector.length + 1) = vector ++ [0] := by
    unfold resize
    rw [List.take_append, List.take_of_length_le (by omega), Nat.add_sub_cancel_left]
    rfl
  rw [hresize, List.set_append_right _ _ le_rfl, Nat.sub_self]
  rfl

theorem resize_one_set (vector : List ℕ) (n : ℕ) : (resize vector 1).set 0 n = [n] := by
  cases vector with
  | nil => rfl
  | cons a vector => simp [resize]

/-! ## The representation -/

/-- A list of pages, with their numbers and what is on them. -/
abbrev PageList := List (ℕ × List UInt8)

variable (dbb) in
/-- Every page of the list is on disk, under its place in the list. -/
def Stored (lead : ℕ) (disk : Disk) (l : PageList) : Prop :=
  ∀ i (hi : i < l.length), disk.pages l[i].1 = some (dataPage dbb lead i l[i].2)

/-- What is on the pointer pages. -/
def rows (disk : Disk) (vector : List ℕ) : List (List ℕ) :=
  vector.map fun n => ((disk.pages n).map blob_page.blp_page).getD []

variable (dbb) in
structure TwoLevels (disk : Disk) (vector numbers : List ℕ) : Prop where
  nodup : vector.Nodup
  pages : ∀ n ∈ vector, ∃ page, disk.pages n = some page ∧ page.blp_pointers = true ∧
    page.blp_page.length = dbb.blb_pointers
  length_le : vector.length ≤ dbb.blb_pointers
  pos : 0 < vector.length
  full : (vector.length - 1) * dbb.blb_pointers < numbers.length
  room : numbers.length ≤ vector.length * dbb.blb_pointers
  holds : Paged.Holds dbb.blb_pointers (rows disk vector) numbers

variable (dbb) in
/-- Where the page numbers of a list are. -/
inductive Index (b : blb) (disk : Disk) (numbers : List ℕ) : Prop where
  | level0 (hlevel : b.blb_level = 0) (hempty : numbers = [])
  | level1 (hlevel : b.blb_level = 1) (hle : numbers.length ≤ dbb.blb_max_pages)
      (hvector : b.blb_pages = numbers)
  | level2 (hlevel : b.blb_level = 2) (hpages : TwoLevels dbb disk b.blb_pages numbers)

/-- The number of pointer pages. -/
def blb.pointerPages (b : blb) : ℕ := if b.blb_level = 2 then b.blb_pages.length else 0

variable (dbb) in
/-- The blob holds the list of pages. `supply` counts the pages that were free at first. -/
structure Represents (supply : ℕ) (b : blb) (disk : Disk) (l : PageList) : Prop where
  stored : Stored dbb b.blb_lead_page disk l
  lead : ∀ x ∈ l.head?, b.blb_lead_page = x.1
  sequence : b.blb_sequence = l.length
  max_sequence : l ≠ [] → b.blb_max_sequence + 1 = l.length
  index : Index dbb b disk (l.map Prod.fst)
  supply_le : supply ≤ disk.free.length + l.length + b.pointerPages

theorem created_represents (disk : Disk) : Represents dbb disk.free.length created disk [] where
  stored := fun i hi => by cases hi
  lead := fun x hx => by cases hx
  sequence := rfl
  max_sequence := fun h => absurd rfl h
  index := .level0 rfl rfl
  supply_le := by simp

/-! ## Frames -/

theorem rows_congr {vector : List ℕ} (h : ∀ n ∈ vector, disk'.pages n = disk.pages n) :
    rows disk' vector = rows disk vector := by
  unfold rows
  refine List.map_congr_left fun n hn => ?_
  rw [h n hn]

theorem TwoLevels.congr {vector numbers : List ℕ} (h : TwoLevels dbb disk vector numbers)
    (hpages : ∀ n ∈ vector, disk'.pages n = disk.pages n) : TwoLevels dbb disk' vector numbers where
  nodup := h.nodup
  pages := by
    intro n hn
    rw [hpages n hn]
    exact h.pages n hn
  length_le := h.length_le
  pos := h.pos
  full := h.full
  room := h.room
  holds := by
    rw [rows_congr hpages]
    exact h.holds

theorem TwoLevels.allocated {vector numbers : List ℕ} {page : blob_page}
    (h : TwoLevels dbb disk vector numbers) (hpage : Allocated disk n page disk') :
    TwoLevels dbb disk' vector numbers := by
  refine h.congr fun m hm => ?_
  obtain ⟨page', hpage', -⟩ := h.pages m hm
  rw [hpage.pages_of_some hpage', hpage']

theorem Stored.append {lead : ℕ} {l : PageList} {image : List UInt8} (h : Stored dbb lead disk l)
    (hpage : Allocated disk n (dataPage dbb lead l.length image) disk') :
    Stored dbb lead disk' (l ++ [(n, image)]) := by
  intro i hi
  rw [List.length_append, List.length_singleton] at hi
  by_cases hlast : i = l.length
  · subst hlast
    simp only [List.getElem_concat_length]
    exact hpage.pages_self
  · have hlt : i < l.length := by omega
    simp only [List.getElem_append_left hlt]
    exact hpage.pages_of_some (h i hlt)

/-- The pages of the list are no pointer pages. -/
theorem Stored.congr {lead : ℕ} {l : PageList} (h : Stored dbb lead disk l)
    (hpages : ∀ m page, disk.pages m = some page → page.blp_pointers = false →
      disk'.pages m = some page) : Stored dbb lead disk' l :=
  fun i hi => hpages _ _ (h i hi) rfl

/-! ## Pointer pages -/

/-- What `insert_page` does to a pointer page. -/
def setSlot (l page_number : ℕ) (page : blob_page) : blob_page :=
  { page with blp_page := page.blp_page.set l page_number, blp_length := (l + 1) * 4 }

theorem rows_modify {vector : List ℕ} (hnodup : vector.Nodup) {k : ℕ} (hk : k < vector.length)
    {page : blob_page} (hpage : disk.pages vector[k] = some page) (f : blob_page → blob_page) :
    rows (disk.modify vector[k] f) vector = (rows disk vector).set k (f page).blp_page := by
  refine List.ext_getElem (by simp [rows]) fun j hj hj' => ?_
  have hjv : j < vector.length := by simpa [rows] using hj
  rw [List.getElem_set]
  by_cases heq : k = j
  · subst heq
    simp [rows, hpage]
  · have hne : vector[j] ≠ vector[k] := fun h => heq ((hnodup.getElem_inj_iff.1 h).symm)
    simp [rows, heq, Function.update_of_ne hne]

theorem rows_getElem? {vector : List ℕ} {k : ℕ} (hk : k < vector.length) {page : blob_page}
    (hpage : disk.pages vector[k] = some page) : (rows disk vector)[k]? = some page.blp_page := by
  unfold rows
  rw [List.getElem?_map, List.getElem?_eq_getElem hk, Option.map_some, hpage]
  rfl

/-- A number is entered on the last pointer page. -/
theorem TwoLevels.set_slot {vector numbers : List ℕ} (h : TwoLevels dbb disk vector numbers)
    (hk : numbers.length / dbb.blb_pointers < vector.length) (x : ℕ) :
    TwoLevels dbb (disk.modify vector[numbers.length / dbb.blb_pointers]
      (setSlot (numbers.length % dbb.blb_pointers) x)) vector (numbers ++ [x]) := by
  have hpos := dbb.blb_pointers_pos
  obtain ⟨page, hpage, hpointers, hlength⟩ := h.pages _ (List.getElem_mem hk)
  have hroom : numbers.length < vector.length * dbb.blb_pointers := (Nat.div_lt_iff_lt_mul hpos).1 hk
  have hfull := h.full
  constructor
  · exact h.nodup
  · intro n hn
    by_cases heq : n = vector[numbers.length / dbb.blb_pointers]
    · subst heq
      refine ⟨setSlot (numbers.length % dbb.blb_pointers) x page, ?_, hpointers, ?_⟩
      · rw [modify_pages, Function.update_self, hpage]
        rfl
      · rw [← hlength]
        exact List.length_set
    · rw [modify_pages, Function.update_of_ne heq]
      exact h.pages n hn
  · exact h.length_le
  · exact h.pos
  · rw [List.length_append]
    omega
  · rw [List.length_append, List.length_singleton]
    omega
  · rw [rows_modify h.nodup hk hpage]
    exact h.holds.set_append hpos (rows_getElem? hk hpage) hlength

/-- All pointer pages are full, and the number is entered on a new one. -/
theorem TwoLevels.new_page {vector numbers : List ℕ} (h : TwoLevels dbb disk vector numbers)
    (hfull : numbers.length = vector.length * dbb.blb_pointers) (hlt : vector.length < dbb.blb_pointers)
    {page : blob_page} (hpage : Allocated disk n page disk') (hpointers : page.blp_pointers = true)
    (hlength : page.blp_page.length = dbb.blb_pointers) {x : ℕ} (hslot : page.blp_page[0]? = some x) :
    TwoLevels dbb disk' (vector ++ [n]) (numbers ++ [x]) := by
  have hpos := dbb.blb_pointers_pos
  have hnew : n ∉ vector := by
    intro hn
    obtain ⟨page', hpage', -⟩ := h.pages n hn
    rw [hpage.unused] at hpage'
    cases hpage'
  have hrows : rows disk' (vector ++ [n]) = rows disk vector ++ [page.blp_page] := by
    have hold : rows disk' vector = rows disk vector := rows_congr fun m hm => by
      obtain ⟨page', hpage', -⟩ := h.pages m hm
      rw [hpage.pages_of_some hpage', hpage']
    rw [← hold]
    simp [rows, hpage.pages_self]
  constructor
  · exact List.nodup_append.2 ⟨h.nodup, by simp, by rintro a ha b hb rfl; simp at hb; exact hnew (hb ▸ ha)⟩
  · intro m hm
    rcases List.mem_append.1 hm with hm | hm
    · exact (h.allocated hpage).pages m hm
    · rw [List.mem_singleton.1 hm]
      exact ⟨page, hpage.pages_self, hpointers, hlength⟩
  · rw [List.length_append, List.length_singleton]
    omega
  · rw [List.length_append, List.length_singleton]
    omega
  · rw [List.length_append, List.length_append, List.length_singleton, List.length_singleton,
      Nat.add_sub_cancel]
    omega
  · rw [List.length_append, List.length_append, List.length_singleton, List.length_singleton,
      Nat.add_mul]
    omega
  · rw [hrows]
    exact h.holds.new_row hpos (by simpa [rows] using hfull) hslot

/-- What `insert_page` gets of `pointer_page` when the number is entered. -/
def PointerPage (dbb : Database) (numbers : List ℕ) (b : blb) (disk : Disk) :
    Except Refusal (ℕ × blb × Disk) → Prop
  | .ok (m, b', disk') =>
      b' = { b with blb_pages := b'.blb_pages } ∧
      numbers.length < dbb.blb_pointers * dbb.blb_pointers ∧
      (∀ x, TwoLevels dbb (disk'.modify m (setSlot (numbers.length % dbb.blb_pointers) x)) b'.blb_pages
        (numbers ++ [x])) ∧
      disk.free.length + b.blb_pages.length = disk'.free.length + b'.blb_pages.length ∧
      ∀ k page f, disk.pages k = some page → page.blp_pointers = false →
        (disk'.modify m f).pages k = some page
  | .error .blobtoobig => dbb.blb_pointers * dbb.blb_pointers ≤ numbers.length
  | .error .outOfPages => disk.free = [] ∧ b.blb_pages.length < dbb.blb_pointers
  | .error .corrupt => False

theorem pointer_page_spec {numbers : List ℕ} (h : TwoLevels dbb disk b.blb_pages numbers)
    (hsequence : b.blb_sequence = numbers.length) :
    PointerPage dbb numbers b disk (pointer_page dbb b disk) := by
  have hpos := dbb.blb_pointers_pos
  have hsize := dbb.blb_pointers_lt
  have hle : numbers.length / dbb.blb_pointers ≤ b.blb_pages.length :=
    (Nat.div_le_div_right h.room).trans_eq (Nat.mul_div_cancel _ hpos)
  have hmod : b.blb_sequence / dbb.blb_pointers % 2 ^ 16 = numbers.length / dbb.blb_pointers := by
    rw [hsequence]
    exact Nat.mod_eq_of_lt (hle.trans_lt (h.length_le.trans_lt hsize))
  unfold pointer_page
  dsimp only
  rw [hmod]
  by_cases hk : numbers.length / dbb.blb_pointers < b.blb_pages.length
  · -- the last pointer page has room
    obtain ⟨page, hpage, hpointers, -⟩ := h.pages _ (List.getElem_mem hk)
    rw [List.getElem?_eq_getElem hk]
    dsimp only
    rw [if_neg (by rw [hpage]; simp)]
    refine ⟨rfl, ?_, fun x => h.set_slot hk x, rfl, ?_⟩
    · exact (Nat.div_lt_iff_lt_mul hpos).1 (hk.trans_le h.length_le)
    · intro k page' f hpage' hdata
      have hne : k ≠ b.blb_pages[numbers.length / dbb.blb_pointers] := by
        rintro rfl
        rw [hpage] at hpage'
        cases hpage'
        rw [hpointers] at hdata
        cases hdata
      rw [modify_pages, Function.update_of_ne hne, hpage']
  · have hlast : numbers.length / dbb.blb_pointers = b.blb_pages.length := by omega
    have hfull : numbers.length = b.blb_pages.length * dbb.blb_pointers := by
      refine le_antisymm h.room ?_
      rw [← hlast]
      exact Nat.div_mul_le_self ..
    rw [List.getElem?_eq_none (by omega), hlast]
    dsimp only
    split_ifs with hlt
    · split
      · rename_i hnone
        exact ⟨DPM_allocate_none hnone, hlt⟩
      · rename_i m disk' hsome
        have hpage := (DPM_allocate_some hsome).modify fun page =>
          { page with blp_pointers := true, blp_lead_page := b.blb_lead_page }
        refine ⟨rfl, ?_, fun x => ?_, ?_, ?_⟩
        · rw [hfull]
          exact Nat.mul_lt_mul_of_pos_right hlt hpos
        · have hcolumn : numbers.length % dbb.blb_pointers = 0 := by
            rw [hfull]
            exact Nat.mul_mod_left ..
          rw [resize_succ_set, hcolumn]
          refine h.new_page hfull hlt (hpage.modify (setSlot 0 x)) rfl ?_ ?_
          · simp [setSlot, formatted]
          · simp [setSlot, formatted, hpos]
        · rw [resize_succ_set, hpage.free]
          simp
          omega
        · intro k page f hk' _
          exact (hpage.modify f).pages_of_some hk'
    · show dbb.blb_pointers * dbb.blb_pointers ≤ numbers.length
      rw [hfull]
      exact Nat.mul_le_mul_right _ (by omega)

/-! ## Insertion -/

/-- The overflow of the vector of a blob at level 1. -/
theorem to_level_2_spec {numbers : List ℕ} (hlength : numbers.length = dbb.blb_max_pages)
    (hvector : b.blb_pages = numbers) :
    match to_level_2 dbb b disk with
    | none => disk.free = []
    | some (b', disk') =>
        b' = { b with blb_level := 2, blb_pages := b'.blb_pages } ∧ b'.blb_pages.length = 1 ∧
        TwoLevels dbb disk' b'.blb_pages numbers ∧
        disk.free.length = disk'.free.length + 1 ∧
        ∀ k page, disk.pages k = some page → disk'.pages k = some page := by
  have hpos := dbb.blb_max_pages_pos
  have hlt := dbb.blb_max_pages_lt
  unfold to_level_2
  split
  · rename_i hnone
    split at hnone
    · rename_i hallocate
      exact DPM_allocate_none hallocate
    · cases hnone
  · rename_i b' disk' hsome
    split at hsome
    · cases hsome
    · rename_i m disk1 hallocate
      cases hsome
      have hpage := (DPM_allocate_some hallocate).modify fun page =>
        { page with
          blp_pointers := true
          blp_lead_page := b.blb_lead_page
          blp_length := b.blb_pages.length * 4
          blp_page := b.blb_pages ++ page.blp_page.drop b.blb_pages.length }
      refine ⟨rfl, ?_, ?_, ?_, fun k page hk => hpage.pages_of_some hk⟩
      · rw [resize_one_set]
        rfl
      · rw [resize_one_set]
        constructor
        · exact List.nodup_singleton m
        · intro k hk
          rw [List.mem_singleton.1 hk]
          refine ⟨_, hpage.pages_self, rfl, ?_⟩
          simp [formatted, hvector, hlength]
          omega
        · rw [List.length_singleton]
          omega
        · exact Nat.one_pos
        · rw [List.length_singleton, hlength]
          omega
        · rw [List.length_singleton, hlength]
          omega
        · have hrows : ∀ d : Disk, ∀ page, d.pages m = some page → rows d [m] = [page.blp_page] := by
            intro d page hd
            simp [rows, hd]
          rw [hrows _ _ hpage.pages_self]
          refine Paged.holds_singleton ?_ (by omega)
          rw [hvector]
          exact List.prefix_append ..
      · rw [hpage.free]
        rfl

/-- What is got of `insert_number` for a blob with these page numbers. -/
def Entered (dbb : Database) (numbers : List ℕ) (x : ℕ) (b : blb) (disk : Disk) :
    Except Refusal (blb × Disk) → Prop
  | .ok (b', disk') =>
      b' = { b with blb_level := b'.blb_level, blb_pages := b'.blb_pages } ∧ b'.blb_level ≠ 0 ∧
      numbers.length < dbb.blb_pointers * dbb.blb_pointers ∧
      Index dbb b' disk' (numbers ++ [x]) ∧
      disk.free.length + b.pointerPages = disk'.free.length + b'.pointerPages ∧
      ∀ k page, disk.pages k = some page → page.blp_pointers = false → disk'.pages k = some page
  | .error .blobtoobig => dbb.blb_pointers * dbb.blb_pointers ≤ numbers.length
  | .error .outOfPages => disk.free.length + b.pointerPages < dbb.blb_pointers
  | .error .corrupt => False

theorem pointerPages_level1 (h : b.blb_level = 1) : b.pointerPages = 0 := by
  simp [blb.pointerPages, h]

theorem pointerPages_level2 (h : b.blb_level = 2) : b.pointerPages = b.blb_pages.length := by
  simp [blb.pointerPages, h]

theorem insert_pointer_spec {numbers : List ℕ} (hlevel : b.blb_level = 2)
    (h : TwoLevels dbb disk b.blb_pages numbers) (hsequence : b.blb_sequence = numbers.length) (x : ℕ) :
    Entered dbb numbers x b disk (insert_pointer dbb x b disk) := by
  have hspec := pointer_page_spec h hsequence
  unfold insert_pointer
  cases hrun : pointer_page dbb b disk with
  | error e =>
    rw [hrun] at hspec
    cases e with
    | blobtoobig => exact hspec
    | corrupt => exact hspec
    | outOfPages =>
      show disk.free.length + b.pointerPages < dbb.blb_pointers
      rw [pointerPages_level2 hlevel, hspec.1]
      simpa using hspec.2
  | ok result =>
    obtain ⟨m, b', disk'⟩ := result
    rw [hrun] at hspec
    obtain ⟨hb, hlt, hpages, hfree, hkeep⟩ := hspec
    have hlevel' : b'.blb_level = 2 := by rw [hb]; exact hlevel
    have hsequence' : b'.blb_sequence = numbers.length := by rw [hb]; exact hsequence
    refine ⟨?_, by omega, hlt, .level2 hlevel' ?_, ?_, fun k page hk hdata => hkeep k page _ hk hdata⟩
    · rw [hb]
    · rw [hsequence']
      exact hpages x
    · rw [pointerPages_level2 hlevel, pointerPages_level2 hlevel']
      exact hfree

/-- The vector has been moved before. -/
theorem Entered.of_moved {numbers : List ℕ} {x : ℕ} {b' : blb} {result : Except Refusal (blb × Disk)}
    (h : Entered dbb numbers x b' disk' result)
    (hb : b' = { b with blb_level := b'.blb_level, blb_pages := b'.blb_pages })
    (hfree : disk.free.length + b.pointerPages = disk'.free.length + b'.pointerPages)
    (hkeep : ∀ k page, disk.pages k = some page → disk'.pages k = some page) :
    Entered dbb numbers x b disk result := by
  match result, h with
  | .ok (b'', disk''), ⟨hb', hlevel, hlt, hindex, hfree', hkeep'⟩ =>
    refine ⟨?_, hlevel, hlt, hindex, hfree.trans hfree', ?_⟩
    · rw [hb', hb]
    · intro k page hk hdata
      exact hkeep' k page (hkeep k page hk) hdata
  | .error .blobtoobig, htoobig => exact htoobig
  | .error .outOfPages, hout => exact hfree.trans_lt hout
  | .error .corrupt, hcorrupt => exact hcorrupt

theorem insert_number_spec {numbers : List ℕ} (h : Index dbb b disk numbers) (hlevel : b.blb_level ≠ 0)
    (hsequence : b.blb_sequence = numbers.length) (x : ℕ) :
    Entered dbb numbers x b disk (insert_number dbb x b disk) := by
  have hmax := dbb.blb_max_pages_lt
  have hsquare : dbb.blb_pointers ≤ dbb.blb_pointers * dbb.blb_pointers := Nat.le_mul_self _
  unfold insert_number
  cases h with
  | level0 h0 => exact absurd h0 hlevel
  | level1 hlevel1 hle hvector =>
    by_cases hroom : numbers.length < dbb.blb_max_pages
    · have hset : (if b.blb_sequence ≥ b.blb_pages.length then resize b.blb_pages (b.blb_sequence + 1)
          else b.blb_pages).set b.blb_sequence x = numbers ++ [x] := by
        rw [hsequence, hvector, if_pos le_rfl, resize_succ_set]
      rw [if_pos ⟨hlevel1, by omega⟩]
      dsimp only
      rw [hset]
      refine ⟨rfl, hlevel, by omega, .level1 hlevel1 ?_ rfl, ?_, fun k page hk _ => hk⟩
      · rw [List.length_append, List.length_singleton]
        omega
      · simp [blb.pointerPages, hlevel1]
    · -- the vector overflows
      have hspec := @to_level_2_spec dbb disk b numbers (by omega) hvector
      rw [if_neg (by rintro ⟨-, hlt⟩; omega), if_pos hlevel1]
      cases hmove : to_level_2 dbb b disk with
      | none =>
        rw [hmove] at hspec
        show disk.free.length + b.pointerPages < dbb.blb_pointers
        rw [pointerPages_level1 hlevel1, hspec]
        simpa using dbb.blb_pointers_pos
      | some moved =>
        obtain ⟨b', disk'⟩ := moved
        rw [hmove] at hspec
        obtain ⟨hb, hone, hpages, hfree, hkeep⟩ := hspec
        have hlevel' : b'.blb_level = 2 := by rw [hb]
        have hsequence' : b'.blb_sequence = numbers.length := by rw [hb]; exact hsequence
        refine (insert_pointer_spec hlevel' hpages hsequence' x).of_moved ?_ ?_ hkeep
        · rw [hb]
        · rw [pointerPages_level1 hlevel1, pointerPages_level2 hlevel', hone, hfree]
  | level2 hlevel2 hpages =>
    rw [if_neg (by rintro ⟨h1, -⟩; omega), if_neg (by omega)]
    exact insert_pointer_spec hlevel2 hpages hsequence x

/-- What is got of `insert_page` for a blob that holds `l`. -/
def Inserted (dbb : Database) (supply : ℕ) (l : PageList) (image : List UInt8) :
    Except Refusal (ℕ × blb × Disk) → Prop
  | .ok (n, b, disk) =>
      l.length < dbb.blb_pointers * dbb.blb_pointers ∧
        Represents dbb supply { b with blb_sequence := b.blb_sequence + 1 } disk (l ++ [(n, image)])
  | .error .blobtoobig => dbb.blb_pointers * dbb.blb_pointers ≤ l.length
  | .error .outOfPages => supply ≤ l.length + dbb.blb_pointers
  | .error .corrupt => False

theorem Index.allocated {numbers : List ℕ} {page : blob_page} (h : Index dbb b disk numbers)
    (hpage : Allocated disk n page disk') : Index dbb b disk' numbers := by
  cases h with
  | level0 hlevel hempty => exact .level0 hlevel hempty
  | level1 hlevel hle hvector => exact .level1 hlevel hle hvector
  | level2 hlevel hpages => exact .level2 hlevel (hpages.allocated hpage)

/-- Only the level and the vector of the blob count for the index. -/
theorem Index.of_eq {numbers : List ℕ} (h : Index dbb b disk numbers) {b' : blb}
    (hlevel : b'.blb_level = b.blb_level) (hpages : b'.blb_pages = b.blb_pages) :
    Index dbb b' disk numbers := by
  cases h with
  | level0 h0 hempty => exact .level0 (hlevel.trans h0) hempty
  | level1 h1 hle hvector => exact .level1 (hlevel.trans h1) hle (hpages.trans hvector)
  | level2 h2 hindex => exact .level2 (hlevel.trans h2) (by rw [hpages]; exact hindex)

theorem Index.pointerPages_le {numbers : List ℕ} (h : Index dbb b disk numbers) :
    b.pointerPages ≤ dbb.blb_pointers := by
  cases h with
  | level0 hlevel => simp [blb.pointerPages, hlevel]
  | level1 hlevel => simp [pointerPages_level1 hlevel]
  | level2 hlevel hpages =>
    rw [pointerPages_level2 hlevel]
    exact hpages.length_le

theorem insert_page_spec {supply : ℕ} {l : PageList} (h : Represents dbb supply b disk l)
    (hlevel : b.blb_level ≠ 0) (image : List UInt8) :
    Inserted dbb supply l image (insert_page dbb image b disk) := by
  have hsupply := h.supply_le
  unfold insert_page
  cases hallocate : disk.DPM_allocate dbb with
  | none =>
    have hpointers := h.index.pointerPages_le
    rw [DPM_allocate_none hallocate] at hsupply
    show supply ≤ l.length + dbb.blb_pointers
    simp only [List.length_nil] at hsupply
    omega
  | some allocated =>
    obtain ⟨n, disk1⟩ := allocated
    dsimp only
    -- the blob while its page is written
    generalize hb1 : (if b.blb_sequence = 0 then
      { b with blb_max_sequence := b.blb_sequence, blb_lead_page := n }
      else { b with blb_max_sequence := b.blb_sequence } : blb) = b1
    have hlead : (∀ x ∈ (l ++ [(n, image)]).head?, b1.blb_lead_page = x.1) ∧
        (l ≠ [] → b1.blb_lead_page = b.blb_lead_page) := by
      cases l with
      | nil =>
        have hzero : b.blb_sequence = 0 := h.sequence
        rw [if_pos hzero] at hb1
        subst hb1
        simp
      | cons x l =>
        have hne : b.blb_sequence ≠ 0 := by simp [h.sequence]
        rw [if_neg hne] at hb1
        subst hb1
        simpa using h.lead
    have hfields : b1 = { b with blb_max_sequence := b.blb_sequence, blb_lead_page := b1.blb_lead_page } := by
      subst hb1
      split_ifs <;> rfl
    have hsequence : b1.blb_sequence = l.length := by rw [hfields]; exact h.sequence
    have hlevel1 : b1.blb_level = b.blb_level := by rw [hfields]
    have hpages1 : b1.blb_pages = b.blb_pages := by rw [hfields]
    have hmax : b1.blb_max_sequence = l.length := by rw [hfields]; exact h.sequence
    have hpage := (DPM_allocate_some hallocate).modify fun page =>
      { page with
        blp_sequence := b1.blb_sequence
        blp_lead_page := b1.blb_lead_page
        blp_length := image.length
        blp_data := image }
    have hstored : Stored dbb b1.blb_lead_page disk l := by
      cases l with
      | nil => exact fun i hi => by cases hi
      | cons x l =>
        rw [hlead.2 (by simp)]
        exact h.stored
    have hstored' : Stored dbb b1.blb_lead_page _ (l ++ [(n, image)]) := hstored.append (by
      rw [← hsequence]
      exact hpage)
    have hindex := (h.index.of_eq hlevel1 hpages1).allocated hpage
    have hspec := insert_number_spec hindex (by rw [hlevel1]; exact hlevel)
      (by rw [hsequence, List.length_map]) n
    have hpointers : b1.pointerPages = b.pointerPages := by
      unfold blb.pointerPages
      rw [hlevel1, hpages1]
    have hfree : disk.free.length = disk1.free.length + 1 := by
      rw [(DPM_allocate_some hallocate).free]
      rfl
    cases hrun : insert_number dbb n b1 (disk1.modify n fun page =>
        { page with
          blp_sequence := b1.blb_sequence
          blp_lead_page := b1.blb_lead_page
          blp_length := image.length
          blp_data := image }) with
    | error e =>
      rw [hrun] at hspec
      cases e with
      | corrupt => exact hspec
      | blobtoobig =>
        have htoobig : dbb.blb_pointers * dbb.blb_pointers ≤ (l.map Prod.fst).length := hspec
        rwa [List.length_map] at htoobig
      | outOfPages =>
        have hout : disk1.free.length + b1.pointerPages < dbb.blb_pointers := hspec
        show supply ≤ l.length + dbb.blb_pointers
        omega
    | ok result =>
      obtain ⟨b2, disk2⟩ := result
      rw [hrun] at hspec
      obtain ⟨hb2, hlevel2, hlt, hindex2, hfree2, hkeep⟩ := hspec
      rw [List.length_map] at hlt
      have hlead2 : b2.blb_lead_page = b1.blb_lead_page := by rw [hb2]
      have hsequence2 : b2.blb_sequence = b1.blb_sequence := by rw [hb2]
      have hmax2 : b2.blb_max_sequence = b1.blb_max_sequence := by rw [hb2]
      refine ⟨hlt, ?_, ?_, ?_, ?_, ?_, ?_⟩
      · show Stored dbb b2.blb_lead_page disk2 (l ++ [(n, image)])
        rw [hlead2]
        exact hstored'.congr hkeep
      · show ∀ x ∈ (l ++ [(n, image)]).head?, b2.blb_lead_page = x.1
        rw [hlead2]
        exact hlead.1
      · show b2.blb_sequence + 1 = (l ++ [(n, image)]).length
        rw [hsequence2, hsequence]
        simp
      · intro _
        show b2.blb_max_sequence + 1 = (l ++ [(n, image)]).length
        rw [hmax2, hmax]
        simp
      · rw [List.map_append]
        exact hindex2.of_eq rfl rfl
      · show supply ≤ disk2.free.length + (l ++ [(n, image)]).length + b2.pointerPages
        rw [modify_free] at hfree2
        rw [List.length_append, List.length_singleton]
        omega

/-! ## Runs -/

/-- What is got of `put_page` for a blob that holds `l`. -/
def Put (dbb : Database) (supply : ℕ) (l : PageList) (image : List UInt8) :
    Except Refusal (ℕ × blb × Disk) → Prop
  | .ok (n, b, disk) =>
      l.length < dbb.blb_pointers * dbb.blb_pointers ∧ Represents dbb supply b disk (l ++ [(n, image)])
  | .error .blobtoobig => dbb.blb_pointers * dbb.blb_pointers ≤ l.length
  | .error .outOfPages => supply ≤ l.length + dbb.blb_pointers
  | .error .corrupt => False

theorem put_page_spec {supply : ℕ} {l : PageList} (h : Represents dbb supply b disk l)
    (image : List UInt8) : Put dbb supply l image (put_page dbb image b disk) := by
  have hlevel1 : ∃ b', (if b.blb_level = 0 then { b with blb_level := 1, blb_pages := [] } else b) = b' ∧
      b'.blb_level ≠ 0 ∧ Represents dbb supply b' disk l := by
    refine ⟨_, rfl, ?_⟩
    split_ifs with hlevel
    · cases h.index with
      | level0 _ hempty =>
        have hl : l = [] := List.map_eq_nil_iff.1 hempty
        refine ⟨Nat.one_ne_zero, h.stored, h.lead, h.sequence, h.max_sequence, ?_, ?_⟩
        · exact .level1 rfl (by simp [hl]) hempty.symm
        · have hsupply := h.supply_le
          simpa [blb.pointerPages, hlevel] using hsupply
      | level1 h1 => omega
      | level2 h2 => omega
    · exact ⟨hlevel, h⟩
  obtain ⟨b', hb', hlevel, h'⟩ := hlevel1
  have hspec := insert_page_spec h' hlevel image
  unfold put_page
  rw [hb']
  dsimp only
  cases hrun : insert_page dbb image b' disk with
  | error e =>
    rw [hrun] at hspec
    cases e <;> exact hspec
  | ok result =>
    rw [hrun] at hspec
    exact hspec

theorem put_pages_spec {supply : ℕ} {l : PageList} (h : Represents dbb supply b disk l)
    (hle : l.length ≤ dbb.blb_pointers * dbb.blb_pointers) (images : List (List UInt8)) :
    match put_pages dbb images b disk with
    | .ok (numbers, b', disk') =>
        numbers.length = images.length ∧
        l.length + images.length ≤ dbb.blb_pointers * dbb.blb_pointers ∧
        Represents dbb supply b' disk' (l ++ numbers.zip images)
    | .error .blobtoobig => dbb.blb_pointers * dbb.blb_pointers < l.length + images.length
    | .error .outOfPages => supply < l.length + images.length + dbb.blb_pointers
    | .error .corrupt => False := by
  induction images generalizing b disk l with
  | nil => exact ⟨rfl, hle, by simpa using h⟩
  | cons image images ih =>
    have hspec := put_page_spec h image
    rw [put_pages]
    cases hrun : put_page dbb image b disk with
    | error e =>
      rw [hrun] at hspec
      cases e with
      | blobtoobig =>
        have htoobig : dbb.blb_pointers * dbb.blb_pointers ≤ l.length := hspec
        show dbb.blb_pointers * dbb.blb_pointers < l.length + (image :: images).length
        rw [List.length_cons]
        omega
      | outOfPages =>
        have hout : supply ≤ l.length + dbb.blb_pointers := hspec
        show supply < l.length + (image :: images).length + dbb.blb_pointers
        rw [List.length_cons]
        omega
      | corrupt => exact hspec
    | ok result =>
      obtain ⟨n, b1, disk1⟩ := result
      rw [hrun] at hspec
      obtain ⟨hlt, hput⟩ := hspec
      have hlength : (l ++ [(n, image)]).length = l.length + 1 := by simp
      have hrest := ih hput (by omega)
      dsimp only
      rw [hlength] at hrest
      cases hruns : put_pages dbb images b1 disk1 with
      | error e =>
        rw [hruns] at hrest
        cases e with
        | blobtoobig =>
          dsimp only at hrest ⊢
          rw [List.length_cons]
          omega
        | outOfPages =>
          dsimp only at hrest ⊢
          rw [List.length_cons]
          omega
        | corrupt => exact hrest
      | ok results =>
        obtain ⟨numbers, b2, disk2⟩ := results
        rw [hruns] at hrest
        obtain ⟨hnumbers, htotal, hputs⟩ := hrest
        refine ⟨by simp [hnumbers], ?_, ?_⟩
        · rw [List.length_cons]
          omega
        · rw [List.append_assoc] at hputs
          exact hputs

/-! ## Reading -/

/-- The pages of a list, as they are on disk. -/
def pagesOf (dbb : Database) (lead : ℕ) (l : PageList) : List (ℕ × blob_page) :=
  l.mapIdx fun i x => (x.1, dataPage dbb lead i x.2)

theorem page_number_level2 {numbers : List ℕ} (h : TwoLevels dbb disk b.blb_pages numbers)
    (hlevel : b.blb_level = 2) : page_number dbb disk b =
      Paged.get? dbb.blb_pointers (rows disk b.blb_pages) b.blb_sequence := by
  unfold page_number Paged.get? rows
  rw [if_neg (by omega), List.getElem?_map]
  cases hvector : b.blb_pages[b.blb_sequence / dbb.blb_pointers]? with
  | none => rfl
  | some n =>
    obtain ⟨page, hpage, -⟩ := h.pages n (List.mem_of_getElem? hvector)
    simp [hpage]

theorem Index.page_number {numbers : List ℕ} (h : Index dbb b disk numbers)
    (hlt : b.blb_sequence < numbers.length) :
    Blb.page_number dbb disk b = some numbers[b.blb_sequence] := by
  cases h with
  | level0 _ hempty =>
    subst hempty
    exact absurd hlt (Nat.not_lt_zero _)
  | level1 hlevel _ hvector =>
    unfold Blb.page_number
    rw [if_pos hlevel, hvector, List.getElem?_eq_getElem hlt]
  | level2 hlevel hpages =>
    rw [page_number_level2 hpages hlevel]
    exact hpages.holds _ hlt

/-- The reader when `i` pages are behind it. -/
def reader (b : blb) (i : ℕ) : blb := { opened b with blb_sequence := i }

theorem get_next_page_spec {supply : ℕ} {l : PageList} (h : Represents dbb supply b disk l) {i : ℕ}
    (hi : i < l.length) : get_next_page dbb disk (reader b i) =
      .ok (some (l[i].1, dataPage dbb b.blb_lead_page i l[i].2), reader b (i + 1)) := by
  have hne : l ≠ [] := List.ne_nil_of_length_pos (by omega)
  have hmax := h.max_sequence hne
  have hlevel : b.blb_level ≠ 0 := by
    intro h0
    cases h.index with
    | level0 _ hempty => exact hne (List.map_eq_nil_iff.1 hempty)
    | level1 h1 => omega
    | level2 h2 => omega
  have hindex : Index dbb (reader b i) disk (l.map Prod.fst) := h.index.of_eq rfl rfl
  have hnumber : page_number dbb disk (reader b i) = some l[i].1 := by
    rw [hindex.page_number (by simpa [reader] using hi)]
    simp [reader]
  have hgoes : ¬ ((reader b i).blb_level = 0 ∨ (reader b i).blb_sequence > (reader b i).blb_max_sequence) := by
    show ¬ (b.blb_level = 0 ∨ i > b.blb_max_sequence)
    omega
  unfold get_next_page
  rw [if_neg hgoes, hnumber]
  dsimp only
  rw [h.stored i hi]
  dsimp only
  rw [if_neg (by simp [dataPage, reader])]
  rfl

theorem get_next_page_end {supply : ℕ} {l : PageList} (h : Represents dbb supply b disk l)
    (hne : l ≠ []) : get_next_page dbb disk (reader b l.length) = .ok (none, reader b l.length) := by
  have hmax := h.max_sequence hne
  refine if_pos (.inr ?_)
  show l.length > b.blb_max_sequence
  omega

theorem get_pages_spec {supply : ℕ} {l : PageList} (h : Represents dbb supply b disk l) (hne : l ≠ [])
    {i calls : ℕ} (hi : i ≤ l.length) (hcalls : l.length - i < calls) :
    get_pages dbb disk calls (reader b i) = .ok (some ((pagesOf dbb b.blb_lead_page l).drop i)) := by
  induction calls generalizing i with
  | zero => omega
  | succ calls ih =>
    rw [get_pages]
    by_cases hlast : i = l.length
    · subst hlast
      rw [get_next_page_end h hne]
      simp [pagesOf]
    · have hlt : i < l.length := by omega
      have hpages : i < (pagesOf dbb b.blb_lead_page l).length := by simpa [pagesOf] using hlt
      rw [get_next_page_spec h hlt]
      dsimp only
      rw [ih (by omega) (by omega), List.drop_eq_getElem_cons hpages]
      simp [pagesOf]

theorem Represents.nodup {supply : ℕ} {l : PageList} (h : Represents dbb supply b disk l) :
    (l.map Prod.fst).Nodup := by
  rw [List.nodup_iff_injective_get]
  rintro ⟨i, hi⟩ ⟨j, hj⟩ heq
  simp only [List.length_map] at hi hj
  simp only [List.get_eq_getElem, List.getElem_map] at heq
  have hpages := h.stored i hi
  rw [heq, h.stored j hj, Option.some_inj] at hpages
  have hsequence := congrArg blob_page.blp_sequence hpages
  simpa [dataPage] using hsequence.symm

/-- A blob into which pages are put is read back page by page, in the order of the insertion and each
under its sequence. It is refused only where the pages are more than the pointer pages can hold, or
where the free pages do not do. -/
theorem get_pages_put_pages (dbb : Database) (disk : Disk) (images : List (List UInt8)) :
    match put_pages dbb images created disk with
    | .ok (numbers, b, disk') =>
        numbers.length = images.length ∧ numbers.Nodup ∧
        images.length ≤ dbb.blb_pointers * dbb.blb_pointers ∧
        ∀ calls > images.length, get_pages dbb disk' calls (opened b) =
          .ok (some (pagesOf dbb b.blb_lead_page (numbers.zip images)))
    | .error .blobtoobig => dbb.blb_pointers * dbb.blb_pointers < images.length
    | .error .outOfPages => disk.free.length < images.length + dbb.blb_pointers
    | .error .corrupt => False := by
  have hcreated : Represents dbb disk.free.length created disk [] := created_represents disk
  have hspec := put_pages_spec hcreated (Nat.zero_le _) images
  rw [List.length_nil, Nat.zero_add] at hspec
  cases hrun : put_pages dbb images created disk with
  | error e =>
    rw [hrun] at hspec
    cases e <;> exact hspec
  | ok result =>
    obtain ⟨numbers, b, disk'⟩ := result
    rw [hrun] at hspec
    obtain ⟨hlength, hle, hputs⟩ := hspec
    rw [List.nil_append] at hputs
    have hnodup := hputs.nodup
    rw [List.map_fst_zip (by omega)] at hnodup
    refine ⟨hlength, hnodup, hle, fun calls hcalls => ?_⟩
    cases images with
    | nil =>
      cases hrun
      obtain ⟨calls, rfl⟩ := Nat.exists_eq_succ_of_ne_zero (Nat.ne_of_gt hcalls)
      rfl
    | cons image images =>
      have hzip : (numbers.zip (image :: images)).length = (image :: images).length := by
        rw [List.length_zip, hlength, Nat.min_self]
      have hne : numbers.zip (image :: images) ≠ [] :=
        List.ne_nil_of_length_pos (by rw [hzip]; exact Nat.succ_pos _)
      exact get_pages_spec hputs hne (Nat.zero_le _) (by omega)

end FirebirdCore.Blb
