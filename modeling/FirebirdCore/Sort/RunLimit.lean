import FirebirdCore.Sort.Runs

/-!
# How many runs are merged at once

`mergeRuns` has room for `RUN_GROUP * MAX_MERGE_LEVEL` streams. Growing the buffer turns all runs of the last
depth to runs of the depth before, and the next merge of these takes them all.
-/
namespace FirebirdCore.Sort

namespace scb
variable {s : scb} {k : Counts}

def counts (s : scb) : Counts where
  zeros := (depths s.m_runs).count 0
  ones := (depths s.m_runs).count 1
  twos := (depths s.m_runs).count 2

theorem Counted.counts_eq (h : s.Counted k) : s.counts = k := by
  rw [counts, h]
  simp [Counts.depths, List.count_replicate]

/-- If the buffer grows with this call, there are fewer runs than streams. -/
def InTime (s : scb) (p : Put) : Prop :=
  s.Full → s.Grows s.counts p → s.counts.twos + 1 < RUN_GROUP * MAX_MERGE_LEVEL

instance (s : scb) (p : Put) : Decidable (s.InTime p) :=
  inferInstanceAs (Decidable (_ → _ → _))

def AllInTime (s : scb) : List Put → Prop
  | [] => True
  | p :: puts => s.InTime p ∧ AllInTime (s.put p).2 puts

/-- No merge takes more runs than there are streams. -/
def Fits (s : scb) (space : Space) (puts : List Put) : Prop :=
  ∀ n ∈ s.merges space puts, n ≤ RUN_GROUP * MAX_MERGE_LEVEL

/-- What holds of the counts between calls, as long as the buffer has grown in time. -/
structure Limited (s : scb) (k : Counts) : Prop where
  counted : s.Counted k
  zeros_lt : k.zeros < RUN_GROUP
  ones_lt : k.ones < RUN_GROUP * MAX_MERGE_LEVEL
  ones_of_small : s.Small → k.ones < RUN_GROUP
  twos_of_ones : RUN_GROUP ≤ k.ones → k.twos = 0
  max_pos : 0 < s.m_max_alloc_size

/-- There are no runs by which the buffer would grow. -/
theorem create_eq (record_size halvings : ℕ) : create record_size halvings =
    (scb.mk (record_size / 4) (max (record_size * MIN_RECORDS_TO_ALLOC) MAX_SORT_BUFFER_SIZE)
      (max (record_size * MIN_RECORDS_TO_ALLOC) MAX_SORT_BUFFER_SIZE / 2 ^ halvings) 0 0 []).clear := by
  rw [create, init, if_neg]
  simp

theorem limited_create (record_size halvings : ℕ) : (create record_size halvings).Limited ⟨0, 0, 0⟩ where
  counted := by
    rw [create_eq]
    rfl
  zeros_lt := by decide
  ones_lt := by decide
  ones_of_small := fun _ => by decide
  twos_of_ones := fun _ => rfl
  max_pos := by
    rw [create_eq]
    have hpos : 0 < MAX_SORT_BUFFER_SIZE := by decide
    exact lt_max_of_lt_right hpos

theorem Limited.merged_le (h : s.Limited k) : ∀ n ∈ k.merged, n ≤ RUN_GROUP * MAX_MERGE_LEVEL := by
  have hones := h.ones_lt
  unfold RUN_GROUP MAX_MERGE_LEVEL at *
  rw [Counts.merged]
  intro n hn
  split_ifs at hn with hzero hone
  · cases hn
  · rw [List.mem_singleton.1 hn]
    decide
  · rcases List.mem_pair.1 hn with rfl | rfl
    · decide
    · omega

theorem Limited.put (h : s.Limited k) (p : Put) (htime : s.InTime p) :
    (∀ n ∈ (s.put p).1, n ≤ RUN_GROUP * MAX_MERGE_LEVEL) ∧ ∃ k', (s.put p).2.Limited k' := by
  by_cases hfull : s.Full
  · have hones : k.ones + 1 < 2 ^ 16 := by
      have hlt := h.ones_lt
      unfold RUN_GROUP MAX_MERGE_LEVEL at hlt
      omega
    obtain ⟨hmerged, hcounted, -, hmax, hsize, -⟩ := put_of_full hfull h.counted h.zeros_lt hones p
    have htwos := htime hfull
    rw [h.counted.counts_eq] at htwos
    have hpos : 0 < (s.put p).2.m_max_alloc_size := by
      rw [hmax]
      exact h.max_pos
    have hsmall : (s.put p).2.Small → s.Small ∧ ¬ s.Grows k p := by
      have hmaxpos := h.max_pos
      rw [Small, Small, hmax, hsize]
      split_ifs with hgrows
      · unfold RUN_GROUP
        omega
      · exact fun hle => ⟨hle, hgrows⟩
    rw [hmerged]
    refine ⟨h.merged_le, k.flush (decide (s.Small ∧ p.alloc = true)), ?_⟩
    by_cases hzero : k.zeros + 1 < RUN_GROUP
    · -- another run of depth 0
      have hflush (grows : Bool) : k.flush grows = ⟨k.zeros + 1, k.ones, k.twos⟩ := if_pos hzero
      rw [hflush] at hcounted ⊢
      exact ⟨hcounted, hzero, h.ones_lt, fun hle => h.ones_of_small (hsmall hle).1, h.twos_of_ones, hpos⟩
    · by_cases hone : k.ones + 1 < RUN_GROUP
      · -- another run of depth 1
        have hflush (grows : Bool) : k.flush grows = ⟨0, k.ones + 1, k.twos⟩ := by
          rw [Counts.flush, if_neg hzero, if_pos hone]
        rw [hflush] at hcounted ⊢
        exact ⟨hcounted, Nat.succ_pos _, hone.trans (by decide), fun _ => hone,
          fun hle => absurd hone (Nat.not_lt.2 hle), hpos⟩
      · have hcarries : k.Carries := ⟨Nat.le_of_not_lt hzero, Nat.le_of_not_lt hone⟩
        rw [Counts.flush_of_carries hcarries] at hcounted ⊢
        split_ifs at hcounted ⊢ with hgrows
        · -- the buffer has grown
          have hgrows' : s.Grows k p := ⟨hcarries, of_decide_eq_true hgrows⟩
          exact ⟨hcounted, Nat.succ_pos _, htwos hgrows', fun hle => absurd hgrows' (hsmall hle).2,
            fun _ => rfl, hpos⟩
        · exact ⟨hcounted, Nat.succ_pos _, (by decide : 0 < RUN_GROUP * MAX_MERGE_LEVEL),
            fun _ => Nat.succ_pos _, fun hle => absurd hle (by decide : ¬ RUN_GROUP ≤ 0), hpos⟩
  · rw [put_of_not_full hfull]
    exact ⟨fun n hn => absurd hn List.not_mem_nil, k, h.counted, h.zeros_lt, h.ones_lt, h.ones_of_small, h.twos_of_ones,
      h.max_pos⟩

/-- The runs below the last depth, with the one that `sort` adds. -/
theorem Limited.sort_le (h : s.Limited k) (space : Space) :
    ∀ n ∈ s.sort space, n ≤ RUN_GROUP * MAX_MERGE_LEVEL := by
  have hzeros := h.zeros_lt
  have hones := h.ones_lt
  have htwos := h.twos_of_ones
  have hlow : (s.putRun space).m_runs.countP (fun run => run.run_depth < MAX_MERGE_LEVEL) =
      k.zeros + k.ones + 1 := by
    have hcount : s.m_runs.countP (fun run => run.run_depth < MAX_MERGE_LEVEL) =
        k.depths.countP fun depth => depth < MAX_MERGE_LEVEL := by
      rw [← h.counted, depths, List.countP_map]
      rfl
    rw [putRun, List.countP_cons, hcount]
    simp [Counts.depths, MAX_MERGE_LEVEL, List.countP_replicate]
  have hlength : (s.putRun space).m_runs.length = k.zeros + k.ones + k.twos + 1 := by
    have hdepths : s.m_runs.length = k.depths.length := by
      rw [← h.counted, depths, List.length_map]
    rw [putRun, List.length_cons, hdepths]
    simp [Counts.depths]
    omega
  unfold RUN_GROUP MAX_MERGE_LEVEL at *
  rw [sort]
  dsimp only
  unfold MAX_MERGE_LEVEL
  rw [hlow, hlength]
  intro n hn
  split_ifs at hn with hnone hmerge
  · cases hn
  · rw [List.mem_singleton.1 hn]
    omega
  · cases hn

theorem Limited.merges_le (h : s.Limited k) (space : Space) (puts : List Put) (htime : s.AllInTime puts) :
    ∀ n ∈ s.merges space puts, n ≤ RUN_GROUP * MAX_MERGE_LEVEL := by
  induction puts generalizing s k with
  | nil => exact h.sort_le space
  | cons p puts ih =>
    obtain ⟨hfirst, k', hnext⟩ := h.put p htime.1
    intro n hn
    rcases List.mem_append.1 hn with hn | hn
    · exact hfirst n hn
    · exact ih hnext htime.2 n hn

end scb

namespace scb
variable {s : scb} {k : Counts} {puts : List Put}

def putAll (s : scb) : List Put → scb
  | [] => s
  | p :: puts => (s.put p).2.putAll puts

theorem putAll_append (s : scb) (puts puts' : List Put) :
    s.putAll (puts ++ puts') = (s.putAll puts).putAll puts' := by
  induction puts generalizing s with
  | nil => rfl
  | cons p puts ih => exact ih _

theorem mem_merges_append {n : ℕ} {space : Space} {puts' : List Put}
    (h : n ∈ (s.putAll puts).merges space puts') : n ∈ s.merges space (puts ++ puts') := by
  induction puts generalizing s with
  | nil => exact h
  | cons p puts ih => exact List.mem_append_right _ (ih h)

/-- The buffer has one record, and its runs are counted. -/
structure Started (s : scb) (record_longs size max_size : ℕ) (k : Counts) : Prop where
  m_longs : s.m_longs = record_longs
  m_size_memory : s.m_size_memory = size
  m_max_alloc_size : s.m_max_alloc_size = max_size
  m_next_pointer : s.m_next_pointer = 16
  m_last_record : s.m_last_record = (size : ℤ) - 4 * record_longs
  counted : s.Counted k

/-- With so many records besides the first there is no room. -/
def FullAt (record_longs size count : ℕ) : Prop :=
  (size : ℤ) - 4 * record_longs - 4 * record_longs * count < record_longs ∨
    (size : ℤ) - 4 * record_longs - 4 * record_longs * count - 4 * record_longs ≤ 16 + 8 * count + 8

instance (record_longs size count : ℕ) : Decidable (FullAt record_longs size count) :=
  inferInstanceAs (Decidable (_ ∨ _))

/-- The sort with some more records. -/
def filled (s : scb) (count : ℕ) : scb :=
  { s with
    m_last_record := s.m_last_record - 4 * s.m_longs * count
    m_next_pointer := s.m_next_pointer + 8 * count }

theorem filled_zero (s : scb) : s.filled 0 = s := by
  simp [filled]

theorem filled_add (s : scb) (count : ℕ) : s.add.filled count = s.filled (count + 1) := by
  simp only [filled, add]
  congr 1 <;> push_cast <;> ring

theorem putAll_filled {count : ℕ} (p : Put) (h : ∀ i < count, ¬ (s.filled i).Full) :
    s.putAll (List.replicate count p) = s.filled count := by
  induction count generalizing s with
  | zero => exact (filled_zero s).symm
  | succ count ih =>
    have hfirst := h 0 (Nat.succ_pos _)
    rw [filled_zero] at hfirst
    rw [List.replicate_succ, putAll, put_of_not_full hfirst, ← filled_add]
    apply ih
    intro i hi
    rw [filled_add]
    exact h (i + 1) (by omega)

section Started
variable {record_longs size max_size count : ℕ}

theorem Started.full_iff (h : s.Started record_longs size max_size k) (count : ℕ) :
    (s.filled count).Full ↔ FullAt record_longs size count := by
  rw [Full, FullAt, filled]
  simp only [h.m_longs, h.m_last_record, h.m_next_pointer]

/-- What is behind so many records that there is no room for another. -/
theorem Started.fill (h : s.Started record_longs size max_size k)
    (hroom : ∀ i < count, ¬ FullAt record_longs size i) (hfull : FullAt record_longs size count) (p : Put) :
    (s.putAll (List.replicate count p)).Full ∧ (s.putAll (List.replicate count p)).Counted k ∧
      (s.putAll (List.replicate count p)).m_longs = record_longs ∧
      (s.putAll (List.replicate count p)).m_size_memory = size ∧
      (s.putAll (List.replicate count p)).m_max_alloc_size = max_size := by
  rw [putAll_filled p fun i hi => (h.full_iff i).not.2 (hroom i hi), h.full_iff]
  exact ⟨hfull, h.counted, h.m_longs, h.m_size_memory, h.m_max_alloc_size⟩

/-- The next record starts a buffer again. -/
theorem Started.flush (h : s.Started record_longs size max_size k) (hzeros : k.zeros < RUN_GROUP)
    (hones : k.ones + 1 < 2 ^ 16) (hroom : ∀ i < count, ¬ FullAt record_longs size i)
    (hfull : FullAt record_longs size count) (p : Put) :
    (s.putAll (List.replicate (count + 1) p)).Started record_longs
      (if k.Carries ∧ size ≤ max_size ∧ p.alloc = true then max_size * RUN_GROUP else size) max_size
      (k.flush (decide (size ≤ max_size ∧ p.alloc = true))) := by
  obtain ⟨hfull', hcounted, hlongs, hsize, hmax⟩ := h.fill hroom hfull p
  rw [List.replicate_succ', putAll_append]
  generalize s.putAll (List.replicate count p) = s' at hfull' hcounted hlongs hsize hmax ⊢
  obtain ⟨-, hcounted', hlongs', hmax', hsize', hnext', hlast'⟩ := put_of_full hfull' hcounted hzeros hones p
  have hsmall : s'.Small ↔ size ≤ max_size := by rw [Small, hsize, hmax]
  simp only [hsmall] at hcounted'
  simp only [Grows, hsmall, hsize, hmax] at hsize'
  change (s'.put p).2.Started _ _ _ _
  exact ⟨hlongs'.trans hlongs, hsize', hmax'.trans hmax, hnext', by rw [hlast', hsize', hlongs], hcounted'⟩

/-- As long as the buffer does not grow, the counts go on. -/
theorem Started.flushes (h : s.Started record_longs size max_size k) (hzeros : k.zeros < RUN_GROUP)
    (hones : k.ones < RUN_GROUP) (hroom : ∀ i < count, ¬ FullAt record_longs size i)
    (hfull : FullAt record_longs size count) {p : Put} (hp : p.alloc = false) (times : ℕ) :
    (s.putAll (List.replicate ((count + 1) * times) p)).Started record_longs size max_size
      ((fun k => k.flush false)^[times] k) := by
  induction times generalizing s k with
  | zero => exact h
  | succ times ih =>
    have hflush := h.flush hzeros (by unfold RUN_GROUP at hones; omega) hroom hfull p
    simp only [hp, Bool.false_eq_true, and_false, if_false, decide_false] at hflush
    have hbounds : (k.flush false).zeros < RUN_GROUP ∧ (k.flush false).ones < RUN_GROUP := by
      simp only [Counts.flush, Bool.false_eq_true, if_false]
      split_ifs with hzero hone
      · exact ⟨hzero, hones⟩
      · exact ⟨Nat.succ_pos _, hone⟩
      · exact ⟨Nat.succ_pos _, Nat.succ_pos _⟩
    rw [Nat.mul_succ, Nat.add_comm, List.replicate_add, putAll_append, Function.iterate_succ_apply]
    exact ih hflush hbounds.1 hbounds.2

/-- Runs are added up to the last of a group. -/
theorem Started.zeros (h : s.Started record_longs size max_size ⟨0, k.ones, k.twos⟩)
    (hones : k.ones + 1 < 2 ^ 16) (hroom : ∀ i < count, ¬ FullAt record_longs size i)
    (hfull : FullAt record_longs size count) {p : Put} {times : ℕ} (htimes : times < RUN_GROUP) :
    (s.putAll (List.replicate ((count + 1) * times) p)).Started record_longs size max_size
      ⟨times, k.ones, k.twos⟩ := by
  induction times with
  | zero => exact h
  | succ times ih =>
    have hflush := (ih (Nat.lt_of_succ_lt htimes)).flush (Nat.lt_of_succ_lt htimes) hones hroom hfull p
    rw [Counts.flush, if_pos htimes, if_neg (fun hgrows => Nat.not_lt.2 hgrows.1.1 htimes)] at hflush
    rw [Nat.mul_succ, List.replicate_add, putAll_append]
    exact hflush

end Started

/-- The records of sixteen kilobytes, with which the buffer is to grow and is not. -/
def failing : Put := ⟨false, fun _ => 0⟩

def growing : Put := ⟨true, fun _ => 0⟩

/-- Growing fails fifteen times before it succeeds. -/
def growsLate : List Put :=
  failing :: (List.replicate (7 * 1023) failing ++
    (List.replicate 7 growing ++ (List.replicate (63 * 7) growing ++ List.replicate 63 growing)))

/-- Runs of depth 0 are counted up to their group. -/
theorem flushes_zeros (ones twos : ℕ) {m : ℕ} (h : m < RUN_GROUP) :
    (fun k => Counts.flush k false)^[m] ⟨0, ones, twos⟩ = ⟨m, ones, twos⟩ := by
  induction m with
  | zero => rfl
  | succ m ih =>
    rw [Function.iterate_succ_apply', ih (Nat.lt_of_succ_lt h)]
    exact if_pos h

/-- Eight flushes add a run of depth 1. -/
theorem flushes_ones (twos : ℕ) {n : ℕ} (h : n < RUN_GROUP) :
    (fun k => Counts.flush k false)^[8 * n] ⟨0, 0, twos⟩ = ⟨0, n, twos⟩ := by
  induction n with
  | zero => rfl
  | succ n ih =>
    have hseven := flushes_zeros n twos (by decide : 7 < RUN_GROUP)
    rw [Nat.mul_succ, Nat.add_comm, Function.iterate_add_apply, ih (Nat.lt_of_succ_lt h),
      Function.iterate_succ_apply', hseven, Counts.flush, if_neg (by decide : ¬ 7 + 1 < RUN_GROUP), if_pos h]

/-- A run of the last depth takes sixty-four flushes. -/
theorem flushes_twos (n : ℕ) : (fun k => Counts.flush k false)^[64 * n] ⟨0, 0, 0⟩ = ⟨0, 0, n⟩ := by
  induction n with
  | zero => rfl
  | succ n ih =>
    have hones := flushes_ones n (by decide : 7 < RUN_GROUP)
    have hseven := flushes_zeros 7 n (by decide : 7 < RUN_GROUP)
    rw [Nat.mul_succ, Nat.add_comm, Function.iterate_add_apply, ih, show 64 = (7 + 1) + 8 * 7 by norm_num,
      Function.iterate_add_apply, hones, Function.iterate_succ_apply', hseven]
    rfl

theorem merges_growsLate : 17 ∈ (create 16384 0).merges (fun _ => 0) growsLate := by
  have hroom : ∀ i < 6, ¬ FullAt 4096 131072 i := by decide
  have hfull : FullAt 4096 131072 6 := by decide
  have hroom' : ∀ i < 62, ¬ FullAt 4096 1048576 i := by decide
  have hfull' : FullAt 4096 1048576 62 := by decide
  have hfirst : ((create 16384 0).putAll [failing]).Started 4096 131072 131072 ⟨0, 0, 0⟩ := by
    constructor <;> decide
  have hmany := hfirst.flushes (by decide) (by decide) hroom hfull (rfl : failing.alloc = false) 1023
  have hcounts : (fun k => Counts.flush k false)^[63 + 64 * 15] ⟨0, 0, 0⟩ = ⟨7, 7, 15⟩ := by
    rw [Function.iterate_add_apply, flushes_twos, show 63 = 7 + 8 * 7 by norm_num,
      Function.iterate_add_apply, flushes_ones 15 (by decide)]
    rfl
  rw [show 1023 = 63 + 64 * 15 by norm_num, hcounts] at hmany
  have hgrown := hmany.flush (by decide) (by decide) hroom hfull growing
  rw [if_pos (by decide), show Counts.flush ⟨7, 7, 15⟩ _ = ⟨0, 16, 0⟩ by decide] at hgrown
  have hrest := @Started.zeros _ ⟨0, 16, 0⟩ _ _ _ _ hgrown (by decide) hroom' hfull' growing 7 (by decide)
  obtain ⟨hlast, hcounted, -⟩ := hrest.fill hroom' hfull' growing
  have hmerged := (put_of_full hlast hcounted (by decide) (by decide) growing).1
  have hend : List.replicate 63 growing = List.replicate 62 growing ++ [growing] := List.replicate_succ'
  rw [growsLate, ← List.singleton_append, hend]
  apply mem_merges_append
  apply mem_merges_append
  apply mem_merges_append
  apply mem_merges_append
  apply mem_merges_append
  apply List.mem_append_left
  rw [hmerged]
  decide

end scb

end FirebirdCore.Sort
