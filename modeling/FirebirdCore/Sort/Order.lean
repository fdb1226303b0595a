import FirebirdCore.Sort.Quick

/-!
# Records moved to their order

`order` writes the keys and data of the records in the order of their pointers to the front of the memory that
the records are in. A record that is in the way is moved to where the next one has been, with its pointer.
-/
namespace FirebirdCore.Sort

/-- A longword of sort memory. The slot of a back pointer is that of its first longword. -/
inductive Cell
  | long (longword : ULONG)
  | back (slot : Option ℕ)
  deriving DecidableEq

/-- How records lie in sort memory, one behind the other up to its end. Lengths are in longwords. -/
structure Layout where
  m_longs : ℕ
  bckptr : ℕ
  count : ℕ
  bckptr_pos : 0 < bckptr
  bckptr_lt : bckptr < m_longs

namespace Layout

/-- The length of the key and the data. -/
def length (S : Layout) : ℕ := S.m_longs - S.bckptr

def m_end_memory (S : Layout) : ℕ := S.count * S.m_longs

theorem length_add_bckptr (S : Layout) : S.length + S.bckptr = S.m_longs :=
  Nat.sub_add_cancel S.bckptr_lt.le

theorem length_pos (S : Layout) : 0 < S.length := Nat.sub_pos_of_lt S.bckptr_lt

/-- Records do not overlap. -/
theorem place_le (S : Layout) {p q : ℕ} (h : p < q) : p * S.m_longs + S.m_longs ≤ q * S.m_longs := by
  rw [← Nat.succ_mul]
  exact Nat.mul_le_mul_right _ h

theorem place_inj (S : Layout) {p q : ℕ} (h : p * S.m_longs = q * S.m_longs) : p = q :=
  Nat.eq_of_mul_eq_mul_right (S.bckptr_pos.trans S.bckptr_lt) h

/-- A place is apart from the others. -/
theorem place_ne (S : Layout) {p q : ℕ} (h : q ≠ p) (c : ℕ) (hc : c < S.m_longs) :
    q * S.m_longs + c ≠ p * S.m_longs := by
  rcases Nat.lt_or_gt_of_ne h with hlt | hgt
  · have hle := S.place_le hlt
    omega
  · have hle := S.place_le hgt
    omega

end Layout

/-- Sort memory from `m_last_record` on, with addresses in longwords from there, and the slots of pointers. A
pointer is the address of a key, or null. -/
structure Memory where
  cells : ℕ → Cell
  slots : ℕ → Option ℕ

/-! ## The code -/

namespace Memory

/-- `MOVE_32` of something that has been read. -/
def put (m : Memory) (len : ℕ) (buffer : ℕ → Cell) (dest : ℕ) : Memory :=
  { m with cells := fun a => if dest ≤ a ∧ a < dest + len then buffer (a - dest) else m.cells a }

/-- The longwords from an address on. -/
def read (m : Memory) (src : ℕ) : ℕ → Cell := fun t => m.cells (src + t)

section Put
variable {m : Memory} {len dest a : ℕ}

theorem put_cells_self (buffer : ℕ → Cell) (h : a < len) : (m.put len buffer dest).cells (dest + a) = buffer a := by
  rw [put]
  dsimp only
  rw [if_pos (by omega), Nat.add_sub_cancel_left]

theorem put_cells_before (buffer : ℕ → Cell) (h : a < dest) : (m.put len buffer dest).cells a = m.cells a :=
  if_neg fun hin => by omega

theorem put_cells_behind (buffer : ℕ → Cell) (h : dest + len ≤ a) :
    (m.put len buffer dest).cells a = m.cells a :=
  if_neg fun hin => by omega

end Put

end Memory

/-- The lower limit, advanced to a record that is live. Reading anything but a back pointer is a fault. -/
def advance (S : Layout) (m : Memory) (lower_limit : ℕ) : Option ℕ :=
  if lower_limit < S.m_end_memory then
    match m.cells lower_limit with
    | .back none => advance S m (lower_limit + S.m_longs)
    | .back (some _) => some lower_limit
    | .long _ => none
  else none
termination_by S.m_end_memory - lower_limit
decreasing_by
  have hpos := S.bckptr_pos.trans S.bckptr_lt
  omega

/-- The slots from `ptr` on, with what has been written and the lower limit of live records. -/
def orderLoop (S : Layout) : ℕ → ℕ → Memory → ℕ → ℕ → Option (Memory × ℕ)
  | 0, _, m, output, _ => some (m, output)
  | n + 1, ptr, m, output, lower_limit =>
      match m.slots ptr with
      | none => orderLoop S n (ptr + 1) m output lower_limit
      | some key =>
          (advance S m lower_limit).bind fun lower_limit =>
            if key = lower_limit then
              orderLoop S n (ptr + 1) (m.put S.length (m.read key) output) (output + S.length) lower_limit
            else if output + S.m_longs - 1 ≤ lower_limit then
              let m := { m with cells := Function.update m.cells (key - S.bckptr) (.back none) }
              orderLoop S n (ptr + 1) (m.put S.length (m.read key) output) (output + S.length) lower_limit
            else
              -- another record is where this one is to go
              let buffer := m.read key
              match m.cells lower_limit with
              | .back (some slot) =>
                  let m := { m with slots := Function.update m.slots slot (some key) }
                  let m := m.put S.m_longs (m.read lower_limit) (key - S.bckptr)
                  orderLoop S n (ptr + 1) (m.put S.length buffer output) (output + S.length)
                    (lower_limit + S.m_longs)
              | _ => none

/-- The memory, and how many records there are. -/
def order (S : Layout) (m : Memory) : Option (Memory × ℕ) :=
  (orderLoop S S.count 1 m 0 0).map fun r => (r.1, r.2 / S.length)

/-- How a run is copied where it goes to memory: each record from where it is. -/
def copyRun (S : Layout) (m : Memory) : List Cell :=
  (List.range' 1 S.count).flatMap fun ptr =>
    match m.slots ptr with
    | none => []
    | some key => (List.range S.length).map (m.read key)

/-! ## Before and meanwhile -/

/-- Pointers and records lead to each other, but for records that have been eliminated. -/
structure LaidOut (S : Layout) (m : Memory) : Prop where
  slot : ∀ s key, 1 ≤ s → s ≤ S.count → m.slots s = some key → ∃ place < S.count,
    key = place * S.m_longs + S.bckptr ∧ m.cells (place * S.m_longs) = .back (some s)
  place : ∀ place < S.count, m.cells (place * S.m_longs) = .back none ∨
    ∃ s, m.cells (place * S.m_longs) = .back (some s) ∧ 1 ≤ s ∧ s ≤ S.count ∧
      m.slots s = some (place * S.m_longs + S.bckptr)

/-- The keys and data of the records of some slots that are left. -/
def survivors (S : Layout) (m : Memory) (ptr n : ℕ) : List (List Cell) :=
  (List.range' ptr n).filterMap fun s => (m.slots s).map fun key => (List.range S.length).map (m.read key)

theorem survivors_succ (S : Layout) (m : Memory) (ptr n : ℕ) : survivors S m ptr (n + 1) =
    ((m.slots ptr).map fun key => (List.range S.length).map (m.read key)).toList ++
      survivors S m (ptr + 1) n := by
  rw [survivors, List.range'_succ, List.filterMap_cons]
  cases m.slots ptr <;> rfl

/-- What holds when the slots before `ptr` are done and no record is left below the place `limit`. -/
structure Ordering (S : Layout) (m₀ m : Memory) (ptr output limit : ℕ) : Prop where
  output_le : output ≤ limit * S.m_longs
  limit_le : limit ≤ S.count
  eliminated : ∀ s, ptr ≤ s → s ≤ S.count → m₀.slots s = none → m.slots s = none
  slot : ∀ s key₀, ptr ≤ s → s ≤ S.count → m₀.slots s = some key₀ → ∃ place, limit ≤ place ∧
    place < S.count ∧ m.slots s = some (place * S.m_longs + S.bckptr) ∧
    m.cells (place * S.m_longs) = .back (some s) ∧
    ∀ c < S.length, m.cells (place * S.m_longs + S.bckptr + c) = m₀.cells (key₀ + c)
  place : ∀ place, limit ≤ place → place < S.count → m.cells (place * S.m_longs) = .back none ∨
    ∃ s, m.cells (place * S.m_longs) = .back (some s) ∧ ptr ≤ s ∧ s ≤ S.count ∧
      m.slots s = some (place * S.m_longs + S.bckptr)

section Order
variable {S : Layout} {m₀ m : Memory} {ptr output limit : ℕ}

theorem LaidOut.ordering (h : LaidOut S m) : Ordering S m m 1 0 0 where
  output_le := Nat.zero_le _
  limit_le := Nat.zero_le _
  eliminated := fun _ _ _ hnone => hnone
  slot := by
    intro s key₀ hs hcount hkey
    obtain ⟨place, hplace, rfl, hback⟩ := h.slot s key₀ hs hcount hkey
    exact ⟨place, Nat.zero_le _, hplace, hkey, hback, fun _ _ => rfl⟩
  place := fun place _ hplace => h.place place hplace

/-- A pointer leads to one place. -/
theorem slot_inj {s p q : ℕ} (hp : m.slots s = some (p * S.m_longs + S.bckptr))
    (hq : m.slots s = some (q * S.m_longs + S.bckptr)) : p = q := by
  rw [hp] at hq
  exact S.place_inj (Nat.add_right_cancel (Option.some.inj hq))

/-- A record that is live is that of its slot. -/
theorem Ordering.live (h : Ordering S m₀ m ptr output limit) {q t : ℕ} (hq : limit ≤ q) (hcount : q < S.count)
    (hback : m.cells (q * S.m_longs) = .back (some t)) :
    ptr ≤ t ∧ t ≤ S.count ∧ m.slots t = some (q * S.m_longs + S.bckptr) := by
  rcases h.place q hq hcount with hnone | ⟨s, hsome, hs⟩
  · rw [hback] at hnone
    cases hnone
  · rw [hback] at hsome
    cases hsome
    exact hs

/-- A place that is free is left behind. -/
theorem Ordering.skip (h : Ordering S m₀ m ptr output limit) (hlimit : limit < S.count)
    (hfree : m.cells (limit * S.m_longs) = .back none) : Ordering S m₀ m ptr output (limit + 1) where
  output_le := h.output_le.trans (Nat.mul_le_mul_right _ (Nat.le_succ limit))
  limit_le := hlimit
  eliminated := h.eliminated
  slot := by
    intro s key₀ hs hcount hkey
    obtain ⟨place, hle, hplace, hslot, hback, hdata⟩ := h.slot s key₀ hs hcount hkey
    have hne : limit ≠ place := by
      rintro rfl
      rw [hfree] at hback
      cases hback
    exact ⟨place, Nat.lt_of_le_of_ne hle hne, hplace, hslot, hback, hdata⟩
  place := fun place hle => h.place place (Nat.le_of_succ_le hle)

theorem place_lt_m_end_memory (S : Layout) {place : ℕ} (h : place < S.count) :
    place * S.m_longs < S.m_end_memory :=
  Nat.mul_lt_mul_of_pos_right h (S.bckptr_pos.trans S.bckptr_lt)

/-- The lower limit stops at a live record, at the latest at one that is known to be. -/
theorem advance_spec (h : Ordering S m₀ m ptr output limit) {p s : ℕ} (hp : limit ≤ p) (hcount : p < S.count)
    (hlive : m.cells (p * S.m_longs) = .back (some s)) :
    ∃ q t, advance S m (limit * S.m_longs) = some (q * S.m_longs) ∧ Ordering S m₀ m ptr output q ∧ q ≤ p ∧
      m.cells (q * S.m_longs) = .back (some t) := by
  induction hn : p - limit generalizing limit with
  | zero =>
    obtain rfl : limit = p := by omega
    refine ⟨limit, s, ?_, h, le_rfl, hlive⟩
    rw [advance, if_pos (place_lt_m_end_memory S hcount), hlive]
  | succ n ih =>
    have hlimit : limit < S.count := by omega
    rw [advance, if_pos (place_lt_m_end_memory S hlimit)]
    rcases h.place limit le_rfl hlimit with hfree | ⟨t, hback, -⟩
    · rw [hfree]
      dsimp only
      rw [← Nat.succ_mul]
      exact ih (h.skip hlimit hfree) (by omega) (by omega)
    · rw [hback]
      exact ⟨limit, t, rfl, h, hp, hback⟩

/-- What is written below the lower limit is in nobody's way. -/
theorem Ordering.put (h : Ordering S m₀ m ptr output limit) {len : ℕ} (hlen : output + len ≤ limit * S.m_longs)
    (buffer : ℕ → Cell) : Ordering S m₀ (m.put len buffer output) ptr (output + len) limit := by
  have hcells {place : ℕ} (hle : limit ≤ place) (c : ℕ) :
      (m.put len buffer output).cells (place * S.m_longs + c) = m.cells (place * S.m_longs + c) := by
    have hmul : limit * S.m_longs ≤ place * S.m_longs := Nat.mul_le_mul_right _ hle
    exact Memory.put_cells_behind _ (by omega)
  constructor
  · exact hlen
  · exact h.limit_le
  · exact h.eliminated
  · intro s key₀ hs hcount hkey
    obtain ⟨place, hle, hplace, hslot, hback, hdata⟩ := h.slot s key₀ hs hcount hkey
    refine ⟨place, hle, hplace, hslot, (hcells hle 0).trans hback, fun c hc => ?_⟩
    rw [Nat.add_assoc, hcells hle, ← Nat.add_assoc]
    exact hdata c hc
  · intro place hle hplace
    rw [show (m.put len buffer output).cells (place * S.m_longs) = m.cells (place * S.m_longs) from hcells hle 0]
    exact h.place place hle hplace

/-- The record of the next slot is done with; its place is free from then on. -/
theorem Ordering.free (h : Ordering S m₀ m ptr output limit) {p : ℕ}
    (hback : m.cells (p * S.m_longs) = .back (some ptr)) (hslot : m.slots ptr = some (p * S.m_longs + S.bckptr)) :
    Ordering S m₀ { m with cells := Function.update m.cells (p * S.m_longs) (.back none) } (ptr + 1) output
      limit := by
  constructor
  · exact h.output_le
  · exact h.limit_le
  · exact fun s hs => h.eliminated s (Nat.le_of_succ_le hs)
  · intro s key₀ hs hcount hkey
    obtain ⟨place, hle, hplace, hslot', hback', hdata⟩ := h.slot s key₀ (Nat.le_of_succ_le hs) hcount hkey
    have hne : place ≠ p := by
      rintro rfl
      rw [hback] at hback'
      cases hback'
      omega
    refine ⟨place, hle, hplace, hslot', ?_, fun c hc => ?_⟩
    · exact (Function.update_of_ne (S.place_ne hne 0 (S.bckptr_pos.trans S.bckptr_lt)) _ _).trans hback'
    · have hlt : S.bckptr + c < S.m_longs := by
        have hlength := S.length_add_bckptr
        omega
      dsimp only
      rw [Nat.add_assoc, Function.update_of_ne (S.place_ne hne _ hlt), ← Nat.add_assoc]
      exact hdata c hc
  · intro place hle hplace
    by_cases hp : place = p
    · rw [hp]
      exact .inl (Function.update_self _ _ _)
    · have hcell : Function.update m.cells (p * S.m_longs) (.back none) (place * S.m_longs) =
          m.cells (place * S.m_longs) :=
        Function.update_of_ne (S.place_ne hp 0 (S.bckptr_pos.trans S.bckptr_lt)) _ _
      dsimp only
      rw [hcell]
      rcases h.place place hle hplace with hfree | ⟨s, hback', hs, hcount, hslot'⟩
      · exact .inl hfree
      · have hne : ptr ≠ s := by
          rintro rfl
          exact hp (slot_inj hslot' hslot)
        exact .inr ⟨s, hback', Nat.lt_of_le_of_ne hs hne, hcount, hslot'⟩

/-- The cells of a place when the record of another one has been copied to `p`. -/
theorem copied_cells {m : Memory} {p place c : ℕ} (buffer : ℕ → Cell) (hc : c < S.m_longs) :
    (m.put S.m_longs buffer (p * S.m_longs)).cells (place * S.m_longs + c) =
      if place = p then buffer c else m.cells (place * S.m_longs + c) := by
  split_ifs with hp
  · rw [hp]
    exact Memory.put_cells_self buffer hc
  · rcases Nat.lt_or_gt_of_ne hp with hlt | hgt
    · have hle := S.place_le hlt
      exact Memory.put_cells_before buffer (by omega)
    · have hle := S.place_le hgt
      exact Memory.put_cells_behind buffer (by omega)

/-- The first live record goes to the place of the next slot's, with its pointer. -/
theorem Ordering.relocate (h : Ordering S m₀ m ptr output limit) {p t : ℕ} (hp : limit ≤ p) (hcount : p < S.count)
    (hback : m.cells (p * S.m_longs) = .back (some ptr))
    (hfirst : m.cells (limit * S.m_longs) = .back (some t)) :
    Ordering S m₀ ({ m with slots := Function.update m.slots t (some (p * S.m_longs + S.bckptr)) }.put S.m_longs
      (m.read (limit * S.m_longs)) (p * S.m_longs)) (ptr + 1) output (limit + 1) := by
  have hlimit : limit < S.count := by omega
  have hpos : 0 < S.m_longs := S.bckptr_pos.trans S.bckptr_lt
  obtain ⟨-, -, hslot⟩ := h.live hp hcount hback
  obtain ⟨ht, htcount, hslot'⟩ := h.live le_rfl hlimit hfirst
  constructor
  · exact h.output_le.trans (Nat.mul_le_mul_right _ (Nat.le_succ limit))
  · exact hlimit
  · intro s hs hle hnone
    have hs' := h.eliminated s (Nat.le_of_succ_le hs) hle hnone
    have hne : s ≠ t := by
      rintro rfl
      rw [hslot'] at hs'
      cases hs'
    exact (Function.update_of_ne hne _ _).trans hs'
  · intro s key₀ hs hle hkey
    obtain ⟨place, hplace, hlt, hslotOf, hbackOf, hdata⟩ := h.slot s key₀ (Nat.le_of_succ_le hs) hle hkey
    have hother : place ≠ p := by
      rintro rfl
      rw [hback] at hbackOf
      cases hbackOf
      omega
    by_cases hmoved : place = limit
    · -- the record has been moved
      subst hmoved
      have hst : s = t := by
        rw [hfirst] at hbackOf
        cases hbackOf
        rfl
      refine ⟨p, Nat.lt_of_le_of_ne hp hother, hcount, ?_, ?_, fun c hc => ?_⟩
      · rw [hst]
        exact Function.update_self _ _ _
      · exact (Memory.put_cells_self _ hpos).trans hbackOf
      · have hc' : S.bckptr + c < S.m_longs := by
          have hlength := S.length_add_bckptr
          omega
        rw [Nat.add_assoc, Memory.put_cells_self _ hc', Memory.read, ← Nat.add_assoc]
        exact hdata c hc
    · -- it is where it was
      have hne : s ≠ t := by
        rintro rfl
        exact hmoved (slot_inj hslotOf hslot')
      refine ⟨place, by omega, hlt, (Function.update_of_ne hne _ _).trans hslotOf, ?_, fun c hc => ?_⟩
      · have hcell := @copied_cells S { m with slots := Function.update m.slots t (some (p * S.m_longs + S.bckptr)) }
          p place 0 (m.read (limit * S.m_longs)) hpos
        rw [if_neg hother] at hcell
        exact hcell.trans hbackOf
      · have hc' : S.bckptr + c < S.m_longs := by
          have hlength := S.length_add_bckptr
          omega
        rw [Nat.add_assoc, copied_cells _ hc', if_neg hother, ← Nat.add_assoc]
        exact hdata c hc
  · intro place hle hlt
    have hcell := @copied_cells S { m with slots := Function.update m.slots t (some (p * S.m_longs + S.bckptr)) }
      p place 0 (m.read (limit * S.m_longs)) hpos
    rw [Nat.add_zero] at hcell
    rw [hcell]
    by_cases hplace : place = p
    · -- what was first is here
      subst hplace
      have hne : ptr ≠ t := by
        rintro rfl
        exact absurd (slot_inj hslot hslot') (by omega)
      rw [if_pos rfl]
      exact .inr ⟨t, hfirst, Nat.lt_of_le_of_ne ht hne, htcount, Function.update_self _ _ _⟩
    · rw [if_neg hplace]
      rcases h.place place (Nat.le_of_succ_le hle) hlt with hfree | ⟨s, hbackOf, hs, hscount, hslotOf⟩
      · exact .inl hfree
      · have hne : ptr ≠ s := by
          rintro rfl
          exact hplace (slot_inj hslotOf hslot)
        have hne' : s ≠ t := by
          rintro rfl
          exact absurd (slot_inj hslotOf hslot') (by omega)
        exact .inr ⟨s, hbackOf, Nat.lt_of_le_of_ne hs hne, hscount, (Function.update_of_ne hne' _ _).trans hslotOf⟩

/-- What a step does to memory besides: a record is written, and what is in front stays. -/
structure Written (S : Layout) (m m' : Memory) (output : ℕ) (record : ℕ → Cell) : Prop where
  before : ∀ a < output, m'.cells a = m.cells a
  record : ∀ c < S.length, m'.cells (output + c) = record c
  behind : ∀ a, S.m_end_memory ≤ a → m'.cells a = m.cells a

theorem written_put {m m₁ : Memory} {buffer record : ℕ → Cell} (hrecord : ∀ c < S.length, buffer c = record c)
    (hend : output + S.length ≤ S.m_end_memory) (hbefore : ∀ a < output, m₁.cells a = m.cells a)
    (hbehind : ∀ a, S.m_end_memory ≤ a → m₁.cells a = m.cells a) :
    Written S m (m₁.put S.length buffer output) output record where
  before := fun a ha => (Memory.put_cells_before buffer ha).trans (hbefore a ha)
  record := fun c hc => (Memory.put_cells_self buffer hc).trans (hrecord c hc)
  behind := fun a ha => (Memory.put_cells_behind buffer (hend.trans ha)).trans (hbehind a ha)

theorem place_end_le (S : Layout) {place : ℕ} (h : place < S.count) :
    place * S.m_longs + S.m_longs ≤ S.m_end_memory := by
  rw [← Nat.succ_mul]
  exact Nat.mul_le_mul_right _ h

/-- A step for a record that is left. -/
theorem orderLoop_step (h : Ordering S m₀ m ptr output limit) (hptr : ptr ≤ S.count) {key₀ : ℕ}
    (hkey : m₀.slots ptr = some key₀) :
    ∃ m' limit', (∀ n, orderLoop S (n + 1) ptr m output (limit * S.m_longs) =
        orderLoop S n (ptr + 1) m' (output + S.length) (limit' * S.m_longs)) ∧
      Ordering S m₀ m' (ptr + 1) (output + S.length) limit' ∧ Written S m m' output (m₀.read key₀) := by
  obtain ⟨p, hp, hcount, hslot, hback, hdata⟩ := h.slot ptr key₀ le_rfl hptr hkey
  obtain ⟨q, t, hadvance, hq, hqp, hfirst⟩ := advance_spec h hp hcount hback
  have hlength := S.length_add_bckptr
  have hbckptr := S.bckptr_pos
  have hout := hq.output_le
  have hend := place_end_le S (lt_of_le_of_lt hqp hcount)
  have hpend := place_end_le S hcount
  have hmul : q * S.m_longs ≤ p * S.m_longs := Nat.mul_le_mul_right _ hqp
  -- a key is not at the beginning of a record
  have hne : p * S.m_longs + S.bckptr ≠ q * S.m_longs := by
    by_cases heq : p = q
    · rw [heq]
      omega
    · exact S.place_ne heq _ S.bckptr_lt
  by_cases hbelow : output + S.m_longs - 1 ≤ q * S.m_longs
  · -- the back pointer is not part of what is written
    have hread : Memory.read { m with cells := Function.update m.cells (p * S.m_longs) (.back none) }
        (p * S.m_longs + S.bckptr) = m.read (p * S.m_longs + S.bckptr) := by
      ext c
      exact Function.update_of_ne (by omega) _ _
    refine ⟨_, q, fun n => ?_, (hq.free hback hslot).put (by omega) (m.read (p * S.m_longs + S.bckptr)),
      written_put hdata (by omega) (fun a ha => ?_) fun a ha => ?_⟩
    · rw [orderLoop, hslot]
      dsimp only
      rw [hadvance, Option.bind_some, if_neg hne, if_pos hbelow, Nat.add_sub_cancel, hread]
    · exact Function.update_of_ne (by omega) _ _
    · exact Function.update_of_ne (by omega) _ _
  · refine ⟨_, q + 1, fun n => ?_, (hq.relocate hqp hcount hback hfirst).put (by
      rw [Nat.succ_mul]
      omega) (m.read (p * S.m_longs + S.bckptr)), written_put hdata (by omega) (fun a ha => ?_) fun a ha => ?_⟩
    · rw [orderLoop, hslot]
      dsimp only
      rw [hadvance, Option.bind_some, if_neg hne, if_neg hbelow, hfirst, Nat.add_sub_cancel, Nat.succ_mul]
      rfl
    · exact Memory.put_cells_before _ (by omega)
    · exact Memory.put_cells_behind _ (by omega)

/-- One that has been eliminated is passed over. -/
theorem Ordering.pass (h : Ordering S m₀ m ptr output limit) (hptr : ptr ≤ S.count) (hnone : m₀.slots ptr = none) :
    Ordering S m₀ m (ptr + 1) output limit where
  output_le := h.output_le
  limit_le := h.limit_le
  eliminated := fun s hs => h.eliminated s (Nat.le_of_succ_le hs)
  slot := fun s key₀ hs => h.slot s key₀ (Nat.le_of_succ_le hs)
  place := by
    intro place hle hlt
    rcases h.place place hle hlt with hfree | ⟨s, hback, hs, hcount, hslot⟩
    · exact .inl hfree
    · have hne : ptr ≠ s := by
        rintro rfl
        rw [h.eliminated ptr le_rfl hptr hnone] at hslot
        cases hslot
      exact .inr ⟨s, hback, Nat.lt_of_le_of_ne hs hne, hcount, hslot⟩

/-- The slots that are left are done with. -/
theorem orderLoop_spec {n : ℕ} (h : Ordering S m₀ m ptr output limit) (hn : ptr + n ≤ S.count + 1) :
    ∃ m' limit', orderLoop S n ptr m output (limit * S.m_longs) =
        some (m', output + (survivors S m₀ ptr n).length * S.length) ∧
      Ordering S m₀ m' (ptr + n) (output + (survivors S m₀ ptr n).length * S.length) limit' ∧
      (∀ a < output, m'.cells a = m.cells a) ∧ (∀ a, S.m_end_memory ≤ a → m'.cells a = m.cells a) ∧
      (List.range ((survivors S m₀ ptr n).length * S.length)).map (m'.read output) =
        (survivors S m₀ ptr n).flatten := by
  induction n generalizing m ptr output limit with
  | zero =>
    refine ⟨m, limit, ?_, ?_, fun _ _ => rfl, fun _ _ => rfl, ?_⟩
    · simp [orderLoop, survivors]
    · simpa [survivors] using h
    · simp [survivors]
  | succ n ih =>
    have hptr : ptr ≤ S.count := by omega
    have hnumber : ptr + (n + 1) = ptr + 1 + n := by omega
    rw [survivors_succ, hnumber]
    cases hkey : m₀.slots ptr with
    | none =>
      have hslot := h.eliminated ptr le_rfl hptr hkey
      rw [orderLoop, hslot]
      exact ih (h.pass hptr hkey) (by omega)
    | some key₀ =>
      obtain ⟨m₁, limit', hstep, hnext, hwritten⟩ := orderLoop_step h hptr hkey
      obtain ⟨m', limit₂, hrun, hend, hbefore, hbehind, hrecords⟩ := ih hnext (by omega)
      have houtput : output + S.length + (survivors S m₀ (ptr + 1) n).length * S.length =
          output + ((survivors S m₀ (ptr + 1) n).length + 1) * S.length := by
        rw [Nat.succ_mul, Nat.add_assoc, Nat.add_comm S.length]
      rw [houtput] at hrun hend
      refine ⟨m', limit₂, ?_, hend, fun a ha => ?_, fun a ha => ?_, ?_⟩
      · rw [hstep, hrun]
        rfl
      · exact (hbefore a (by omega)).trans (hwritten.before a ha)
      · exact (hbehind a ha).trans (hwritten.behind a ha)
      · simp only [Option.map_some, Option.toList_some, List.singleton_append, List.length_cons, List.flatten_cons]
        rw [Nat.succ_mul, Nat.add_comm, List.range_add, List.map_append, List.map_map]
        have hfirst : (List.range S.length).map (m'.read output) = (List.range S.length).map (m₀.read key₀) := by
          apply List.map_congr_left
          intro c hc
          have hlt := List.mem_range.1 hc
          exact (hbefore _ (by omega)).trans (hwritten.record c hlt)
        have hrest : m'.read output ∘ (S.length + ·) = m'.read (output + S.length) := by
          ext c
          exact congrArg m'.cells (Nat.add_assoc _ _ _).symm
        rw [hfirst, hrest, hrecords]

theorem copyRun_eq (S : Layout) (m : Memory) : copyRun S m = (survivors S m 1 S.count).flatten := by
  rw [copyRun, survivors]
  induction List.range' 1 S.count with
  | nil => rfl
  | cons ptr ptrs ih =>
    rw [List.flatMap_cons, ih, List.filterMap_cons]
    cases m.slots ptr <;> rfl

end Order

/-- The records of the slots behind `n` are still there, wherever they are. -/
def Kept (S : Layout) (m m' : Memory) (n : ℕ) : Prop :=
  ∀ s key, n < s → s ≤ S.count → m.slots s = some key →
    ∃ key', m'.slots s = some key' ∧ ∀ c < S.length, m'.cells (key' + c) = m.cells (key + c)

theorem Ordering.kept {S : Layout} {m₀ m : Memory} {n output limit : ℕ}
    (h : Ordering S m₀ m (n + 1) output limit) : Kept S m₀ m n := by
  intro s key hs hcount hkey
  obtain ⟨place, -, -, hslot, -, hdata⟩ := h.slot s key hs hcount hkey
  exact ⟨_, hslot, hdata⟩

/-- The memory from `m_last_record` on is then what a copy of the run would be, in the order of the pointers.
Nothing is written over before its slot has come. -/
theorem order_copies (S : Layout) (m : Memory) (h : LaidOut S m) :
    (∃ m', order S m = some (m', (survivors S m 1 S.count).length) ∧
      (List.range ((survivors S m 1 S.count).length * S.length)).map m'.cells = (survivors S m 1 S.count).flatten ∧
      ∀ a, S.m_end_memory ≤ a → m'.cells a = m.cells a) ∧
    copyRun S m = (survivors S m 1 S.count).flatten ∧
    ∀ n ≤ S.count, ∃ r, orderLoop S n 1 m 0 0 = some r ∧ Kept S m r.1 n := by
  refine ⟨?_, copyRun_eq S m, fun n hn => ?_⟩
  · obtain ⟨m', -, hrun, -, -, hbehind, hrecords⟩ := orderLoop_spec h.ordering (Nat.add_comm 1 S.count).le
    have hread : m'.read 0 = m'.cells := by
      ext a
      exact congrArg m'.cells (Nat.zero_add a)
    rw [Nat.zero_mul, Nat.zero_add] at hrun
    rw [hread] at hrecords
    refine ⟨m', ?_, hrecords, hbehind⟩
    rw [order, hrun, Option.map_some, Nat.mul_div_cancel _ S.length_pos]
  · obtain ⟨m', limit, hrun, hordering, -⟩ := orderLoop_spec h.ordering (by omega : 1 + n ≤ S.count + 1)
    rw [Nat.zero_mul] at hrun
    rw [Nat.add_comm 1 n] at hordering
    exact ⟨_, hrun, hordering.kept⟩

theorem one_lt_three_longs : 1 < 3 := by decide

/-- The second record has been eliminated, and the third is to be the first one. -/
def threePlaces : Layout := ⟨3, 1, 3, Nat.zero_lt_one, one_lt_three_longs⟩

def threeInPlaces : Memory where
  cells := fun a => [.back (some 3), .long 30, .long 31, .back none, .long 20, .long 21, .back (some 1), .long 10,
    .long 11].getD a (.long 0)
  slots := fun s => [none, some 7, none, some 1].getD s none

theorem laidOut_threeInPlaces : LaidOut threePlaces threeInPlaces where
  slot := by
    intro s key hs hcount hkey
    obtain rfl | rfl | rfl : s = 1 ∨ s = 2 ∨ s = 3 := by
      change s ≤ 3 at hcount
      omega
    · cases hkey
      exact ⟨2, by decide, rfl, rfl⟩
    · cases hkey
    · cases hkey
      exact ⟨0, by decide, rfl, rfl⟩
  place := by
    intro place hplace
    obtain rfl | rfl | rfl : place = 0 ∨ place = 1 ∨ place = 2 := by
      change place < 3 at hplace
      omega
    · exact .inr ⟨3, rfl, by decide, by decide, rfl⟩
    · exact .inl rfl
    · exact .inr ⟨1, rfl, by decide, by decide, rfl⟩

theorem order_copies_two : ∃ m', order threePlaces threeInPlaces = some (m', 2) ∧
    (List.range 4).map m'.cells = [.long 10, .long 11, .long 30, .long 31] := by
  obtain ⟨⟨m', horder, hcells, -⟩, -⟩ := order_copies threePlaces threeInPlaces laidOut_threeInPlaces
  exact ⟨m', horder, hcells⟩

end FirebirdCore.Sort
