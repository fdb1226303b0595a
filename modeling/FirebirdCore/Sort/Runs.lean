import Mathlib.Data.List.Sort
import Mathlib.Tactic

/-!
# Runs of a sort

When the sort memory is full, its records are written to a run. Eight runs of one depth are merged to a run
of the next depth, up to `MAX_MERGE_LEVEL`. The runs are counted by their depths, and the counts go on like
the digits of a number.
-/
namespace FirebirdCore.Sort

def RUN_GROUP : ℕ := 8

def MAX_MERGE_LEVEL : ℕ := 2

def MAX_SORT_BUFFER_SIZE : ℕ := 1024 * 128

def MIN_RECORDS_TO_ALLOC : ℕ := 8

structure run_control where
  run_depth : ℕ
  run_seek : ℕ
  deriving DecidableEq, Repr

/-- The sort control block. The places in sort memory are relative to `m_memory`. Of the buffers the sizes are kept, which are far
below 2^32 as records are at most `MAX_SORT_RECORD` long. -/
structure scb where
  m_longs : ℕ
  m_max_alloc_size : ℕ
  m_size_memory : ℕ
  m_last_record : ℤ
  m_next_pointer : ℤ
  m_runs : List run_control
  deriving DecidableEq, Repr

/-- Where the temporary space puts the next run. -/
abbrev Space := List run_control → ℕ

/-- One call of `put`, with the outcome of growing the buffer if that is tried. -/
structure Put where
  alloc : Bool
  space : Space

/-! ## The code -/

/-- The first runs are merged in the order of their places in the scratch file. -/
def mergeRuns (space : Space) (n : ℕ) (runs : List run_control) : List run_control :=
  match ((runs.take n).insertionSort fun a b => a.run_seek ≤ b.run_seek).getLast? with
  | none => runs
  | some run => ⟨(run.run_depth + 1) % 2 ^ 16, space runs⟩ :: runs.drop n

/-- How many runs have the depth of the first one. -/
def groupCount (runs : List run_control) : ℕ :=
  (runs.takeWhile fun run => run.run_depth = (runs.head?.map (·.run_depth)).getD 0).length

theorem groupCount_le (runs : List run_control) : groupCount runs ≤ runs.length :=
  (List.takeWhile_sublist _).length_le

theorem length_mergeRuns_lt {space : Space} {n : ℕ} {runs : List run_control} (h : 2 ≤ n)
    (hle : n ≤ runs.length) : (mergeRuns space n runs).length < runs.length := by
  rw [mergeRuns]
  cases hlast : ((runs.take n).insertionSort fun a b => a.run_seek ≤ b.run_seek).getLast? with
  | none =>
    rw [List.getLast?_eq_none_iff] at hlast
    have hlength := congrArg List.length hlast
    rw [List.length_insertionSort, List.length_take_of_le hle, List.length_nil] at hlength
    omega
  | some run =>
    rw [List.length_cons, List.length_drop]
    omega

/-- The loop behind `putRun`, with the counts that `mergeRuns` is called with. -/
def mergeLoop (space : Space) (runs : List run_control) : List ℕ × List run_control :=
  if (runs.head?.map (·.run_depth)).getD MAX_MERGE_LEVEL = MAX_MERGE_LEVEL then ([], runs)
  else if h : groupCount runs % 2 ^ 16 < RUN_GROUP then ([], runs)
  else
    let r := mergeLoop space (mergeRuns space (groupCount runs % 2 ^ 16) runs)
    (groupCount runs % 2 ^ 16 :: r.1, r.2)
termination_by runs.length
decreasing_by
  apply length_mergeRuns_lt
  · unfold RUN_GROUP at h
    omega
  · exact (Nat.mod_le _ _).trans (groupCount_le runs)

namespace scb

/-- The buffer may be as large as before. -/
def Small (s : scb) : Prop := s.m_size_memory ≤ s.m_max_alloc_size

instance (s : scb) : Decidable s.Small := inferInstanceAs (Decidable (_ ≤ _))

/-- There is no room for another record. -/
def Full (s : scb) : Prop :=
  s.m_last_record < s.m_longs ∨ s.m_last_record - 4 * s.m_longs ≤ s.m_next_pointer + 8

instance (s : scb) : Decidable s.Full := inferInstanceAs (Decidable (_ ∨ _))

/-- A larger buffer, and all runs put back by one depth. -/
def grow (s : scb) : scb :=
  { s with
    m_size_memory := s.m_max_alloc_size * RUN_GROUP
    m_runs := s.m_runs.map fun run => { run with run_depth := (run.run_depth + (2 ^ 16 - 1)) % 2 ^ 16 } }

/-- The low key is the first pointer. -/
def clear (s : scb) : scb := { s with m_next_pointer := 8, m_last_record := s.m_size_memory }

def init (s : scb) (alloc : Bool) : scb :=
  if s.Small ∧ s.m_runs.head?.map (·.run_depth) = some MAX_MERGE_LEVEL ∧ alloc = true then s.grow.clear
  else s.clear

/-- A sort without records. The allocation of the buffer has failed so many times. -/
def create (record_size halvings : ℕ) : scb :=
  let m_max_alloc_size := max (record_size * MIN_RECORDS_TO_ALLOC) MAX_SORT_BUFFER_SIZE
  init ⟨record_size / 4, m_max_alloc_size, m_max_alloc_size / 2 ^ halvings, 0, 0, []⟩ false

def putRun (s : scb) (space : Space) : scb := { s with m_runs := ⟨0, space s.m_runs⟩ :: s.m_runs }

/-- A record and its pointer are put to the buffer. -/
def add (s : scb) : scb :=
  { s with
    m_last_record := s.m_last_record - 4 * s.m_longs
    m_next_pointer := s.m_next_pointer + 8 }

/-- The counts that `mergeRuns` is called with, and the sort with another record. -/
def put (s : scb) (p : Put) : List ℕ × scb :=
  if s.Full then
    let r := mergeLoop p.space (s.putRun p.space).m_runs
    (r.1, (({ s.putRun p.space with m_runs := r.2 } : scb).init p.alloc).add)
  else ([], s.add)

/-- The counts that `mergeRuns` is called with by `sort`. -/
def sort (s : scb) (space : Space) : List ℕ :=
  if s.m_runs = [] then []
  else
    let runs := (s.putRun space).m_runs
    let low_depth_cnt := runs.countP fun run => run.run_depth < MAX_MERGE_LEVEL
    if low_depth_cnt > 1 ∧ low_depth_cnt < runs.length then [low_depth_cnt % 2 ^ 16] else []

/-- All counts that `mergeRuns` is called with, by the calls of `put` and by `sort` behind them. -/
def merges (s : scb) (space : Space) : List Put → List ℕ
  | [] => s.sort space
  | p :: puts => (s.put p).1 ++ merges (s.put p).2 space puts

end scb

/-! ## Runs counted by depth -/

/-- How many runs there are of each depth. -/
structure Counts where
  zeros : ℕ
  ones : ℕ
  twos : ℕ
  deriving DecidableEq, Repr

namespace Counts

def depths (k : Counts) : List ℕ :=
  List.replicate k.zeros 0 ++ (List.replicate k.ones 1 ++ List.replicate k.twos 2)

/-- The counts with another run, where eight of a kind are carried over. `grows` tells whether the runs of
the last depth are put back by one where there are no others. -/
def flush (k : Counts) (grows : Bool) : Counts :=
  if k.zeros + 1 < RUN_GROUP then ⟨k.zeros + 1, k.ones, k.twos⟩
  else if k.ones + 1 < RUN_GROUP then ⟨0, k.ones + 1, k.twos⟩
  else if grows then ⟨0, k.twos + 1, 0⟩
  else ⟨0, 0, k.twos + 1⟩

/-- What is merged then. -/
def merged (k : Counts) : List ℕ :=
  if k.zeros + 1 < RUN_GROUP then []
  else if k.ones + 1 < RUN_GROUP then [RUN_GROUP]
  else [RUN_GROUP, k.ones + 1]

end Counts

def depths (runs : List run_control) : List ℕ := runs.map (·.run_depth)

section Merging
variable {space : Space} {runs : List run_control} {tail : List ℕ} {d n : ℕ}

theorem groupCount_eq (h : depths runs = List.replicate n d ++ tail) (hn : 0 < n)
    (htail : tail.head? ≠ some d) : groupCount runs = n := by
  obtain ⟨m, rfl⟩ := Nat.exists_eq_succ_of_ne_zero hn.ne'
  cases runs with
  | nil => simp [depths, List.replicate_succ] at h
  | cons run rest =>
    have hdepth : run.run_depth = d := by
      simpa [depths, List.replicate_succ] using congrArg List.head? h
    have hmap : groupCount (run :: rest) =
        ((depths (run :: rest)).takeWhile fun depth => depth = d).length := by
      rw [depths, List.takeWhile_map, List.length_map, groupCount]
      simp [hdepth, Function.comp_def]
    have hstop : tail.takeWhile (fun depth => depth = d) = [] := by
      cases tail with
      | nil => rfl
      | cons e tail =>
        have hne : e ≠ d := fun heq => htail (by rw [heq]; rfl)
        simp [hne]
    rw [hmap, h, List.takeWhile_append_of_pos (by simp), hstop, List.append_nil, List.length_replicate]

theorem depths_mergeRuns (h : depths runs = List.replicate n d ++ tail) (hn : 0 < n) :
    depths (mergeRuns space n runs) = (d + 1) % 2 ^ 16 :: tail := by
  have hlength : n ≤ runs.length := by
    have hlengths := congrArg List.length h
    rw [depths, List.length_map, List.length_append, List.length_replicate] at hlengths
    omega
  have hfront : depths (runs.take n) = List.replicate n d := by
    rw [depths, List.map_take, ← depths, h, List.take_left' List.length_replicate]
  have hback : depths (runs.drop n) = tail := by
    rw [depths, List.map_drop, ← depths, h, List.drop_left' List.length_replicate]
  rw [mergeRuns]
  cases hlast : ((runs.take n).insertionSort fun a b => a.run_seek ≤ b.run_seek).getLast? with
  | none =>
    rw [List.getLast?_eq_none_iff] at hlast
    have hzero := congrArg List.length hlast
    rw [List.length_insertionSort, List.length_take_of_le hlength, List.length_nil] at hzero
    omega
  | some run =>
    have hmem : run ∈ runs.take n :=
      (List.perm_insertionSort _ _).subset (List.mem_of_getLast? hlast)
    have hdepth : run.run_depth = d := by
      have hin : run.run_depth ∈ depths (runs.take n) := List.mem_map_of_mem hmem
      rw [hfront] at hin
      exact List.eq_of_mem_replicate hin
    change (run.run_depth + 1) % 2 ^ 16 :: depths (runs.drop n) = _
    rw [hdepth, hback]

theorem head_depth (h : depths runs = List.replicate n d ++ tail) (hn : 0 < n) :
    runs.head?.map (·.run_depth) = some d := by
  obtain ⟨m, rfl⟩ := Nat.exists_eq_succ_of_ne_zero hn.ne'
  rw [← List.head?_map, ← depths, h]
  rfl

/-- A group that is too small stays. -/
theorem mergeLoop_small (h : depths runs = List.replicate n d ++ tail) (hn : 0 < n)
    (htail : tail.head? ≠ some d) (hsmall : n < RUN_GROUP) : mergeLoop space runs = ([], runs) := by
  have hcount := groupCount_eq h hn htail
  unfold RUN_GROUP at hsmall
  rw [mergeLoop, hcount, Nat.mod_eq_of_lt (by omega)]
  split_ifs with hlevel hgroup
  · rfl
  · rfl
  · exact absurd hsmall hgroup

/-- A group that is large enough is merged. -/
theorem mergeLoop_group (h : depths runs = List.replicate n d ++ tail) (htail : tail.head? ≠ some d)
    (hgroup : RUN_GROUP ≤ n) (hn : n < 2 ^ 16) (hd : d ≠ MAX_MERGE_LEVEL) :
    mergeLoop space runs = (n :: (mergeLoop space (mergeRuns space n runs)).1,
      (mergeLoop space (mergeRuns space n runs)).2) := by
  unfold RUN_GROUP at hgroup
  have hcount := groupCount_eq h (by omega) htail
  rw [mergeLoop, hcount, Nat.mod_eq_of_lt hn, head_depth h (by omega)]
  rw [if_neg (by simpa using hd), dif_neg (by unfold RUN_GROUP; omega)]

/-- Runs of the last depth are not merged. -/
theorem mergeLoop_last (h : depths runs = List.replicate n MAX_MERGE_LEVEL) :
    mergeLoop space runs = ([], runs) := by
  rw [mergeLoop, if_pos]
  cases runs with
  | nil => rfl
  | cons run rest =>
    have hmem : run.run_depth ∈ depths (run :: rest) := by simp [depths]
    rw [h] at hmem
    simpa using List.eq_of_mem_replicate hmem

/-- The counts behind `putRun` and its loop. -/
theorem mergeLoop_counts {k : Counts} (h : depths runs = 0 :: k.depths) (hzeros : k.zeros < RUN_GROUP)
    (hones : k.ones + 1 < 2 ^ 16) :
    (mergeLoop space runs).1 = k.merged ∧ depths (mergeLoop space runs).2 = (k.flush false).depths := by
  have hall : depths runs = List.replicate (k.zeros + 1) 0 ++
      (List.replicate k.ones 1 ++ List.replicate k.twos 2) := by
    rw [h, Counts.depths, List.replicate_succ, List.cons_append]
  have hbehind : (List.replicate k.ones 1 ++ List.replicate k.twos 2).head? ≠ some 0 := by
    intro hhead
    simpa [List.mem_append, List.mem_replicate] using List.mem_of_head? hhead
  have hlast : (List.replicate k.twos 2).head? ≠ some 1 := by
    intro hhead
    simpa [List.mem_replicate] using List.mem_of_head? hhead
  rw [Counts.merged, Counts.flush]
  by_cases hzero : k.zeros + 1 < RUN_GROUP
  · rw [mergeLoop_small hall (Nat.succ_pos _) hbehind hzero, if_pos hzero, if_pos hzero]
    exact ⟨rfl, hall⟩
  · have height : k.zeros + 1 = RUN_GROUP := by omega
    have hmerged : depths (mergeRuns space (k.zeros + 1) runs) =
        List.replicate (k.ones + 1) 1 ++ List.replicate k.twos 2 := by
      rw [depths_mergeRuns hall (Nat.succ_pos _), List.replicate_succ, List.cons_append]
      rfl
    rw [mergeLoop_group hall hbehind height.ge (by rw [height]; decide) (by decide), if_neg hzero,
      if_neg hzero]
    by_cases hone : k.ones + 1 < RUN_GROUP
    · rw [mergeLoop_small hmerged (Nat.succ_pos _) hlast hone, if_pos hone, if_pos hone]
      exact ⟨by rw [height], hmerged⟩
    · have htwos : depths (mergeRuns space (k.ones + 1) (mergeRuns space (k.zeros + 1) runs)) =
          List.replicate (k.twos + 1) MAX_MERGE_LEVEL := by
        rw [depths_mergeRuns hmerged (Nat.succ_pos _), List.replicate_succ]
        rfl
      rw [mergeLoop_group hmerged hlast (Nat.le_of_not_lt hone) hones (by decide), mergeLoop_last htwos,
        if_neg hone, if_neg hone, if_neg Bool.false_ne_true]
      exact ⟨by rw [height], htwos⟩

end Merging

/-! ## A call of `put` -/

namespace Counts

/-- Another run is carried over to the last depth. -/
def Carries (k : Counts) : Prop := RUN_GROUP ≤ k.zeros + 1 ∧ RUN_GROUP ≤ k.ones + 1

instance (k : Counts) : Decidable k.Carries := inferInstanceAs (Decidable (_ ∧ _))

theorem flush_of_carries {k : Counts} (h : k.Carries) (grows : Bool) :
    k.flush grows = if grows then ⟨0, k.twos + 1, 0⟩ else ⟨0, 0, k.twos + 1⟩ := by
  rw [flush, if_neg (Nat.not_lt.2 h.1), if_neg (Nat.not_lt.2 h.2)]

theorem flush_of_not_carries {k : Counts} (h : ¬ k.Carries) (grows : Bool) : k.flush grows = k.flush false := by
  unfold flush
  by_cases hzero : k.zeros + 1 < RUN_GROUP
  · rw [if_pos hzero, if_pos hzero]
  · by_cases hone : k.ones + 1 < RUN_GROUP
    · rw [if_neg hzero, if_neg hzero, if_pos hone, if_pos hone]
    · exact absurd ⟨Nat.le_of_not_lt hzero, Nat.le_of_not_lt hone⟩ h

/-- The run in front has the last depth just where runs are carried over to it. -/
theorem head_flush_of_not_carries {k : Counts} (h : ¬ k.Carries) :
    (k.flush false).depths.head? ≠ some MAX_MERGE_LEVEL := by
  unfold flush
  by_cases hzero : k.zeros + 1 < RUN_GROUP
  · rw [if_pos hzero]
    simp [depths, List.replicate_succ, MAX_MERGE_LEVEL]
  · by_cases hone : k.ones + 1 < RUN_GROUP
    · rw [if_neg hzero, if_pos hone]
      simp [depths, List.replicate_succ, MAX_MERGE_LEVEL]
    · exact absurd ⟨Nat.le_of_not_lt hzero, Nat.le_of_not_lt hone⟩ h

end Counts

namespace scb
variable {s : scb} {k : Counts}

/-- The runs are as many as counted. -/
def Counted (s : scb) (k : Counts) : Prop := depths s.m_runs = k.depths

instance (s : scb) (k : Counts) : Decidable (s.Counted k) := inferInstanceAs (Decidable (_ = _))

/-- The buffer grows with this call. -/
def Grows (s : scb) (k : Counts) (p : Put) : Prop := k.Carries ∧ s.Small ∧ p.alloc = true

instance (s : scb) (k : Counts) (p : Put) : Decidable (s.Grows k p) := inferInstanceAs (Decidable (_ ∧ _))

theorem put_of_not_full (h : ¬ s.Full) (p : Put) : s.put p = ([], s.add) := if_neg h

/-- With a full buffer, another run is counted, and the record is the first in the buffer. -/
theorem put_of_full (h : s.Full) (hk : s.Counted k) (hzeros : k.zeros < RUN_GROUP)
    (hones : k.ones + 1 < 2 ^ 16) (p : Put) :
    (s.put p).1 = k.merged ∧ (s.put p).2.Counted (k.flush (decide (s.Small ∧ p.alloc = true))) ∧
      (s.put p).2.m_longs = s.m_longs ∧ (s.put p).2.m_max_alloc_size = s.m_max_alloc_size ∧
      (s.put p).2.m_size_memory =
        (if s.Grows k p then s.m_max_alloc_size * RUN_GROUP else s.m_size_memory) ∧
      (s.put p).2.m_next_pointer = 16 ∧
      (s.put p).2.m_last_record = (s.put p).2.m_size_memory - 4 * s.m_longs := by
  have hruns : depths (s.putRun p.space).m_runs = 0 :: k.depths := by
    rw [← hk]
    rfl
  obtain ⟨hmerged, hdepths⟩ := @mergeLoop_counts p.space _ k hruns hzeros hones
  rw [put, if_pos h]
  dsimp only
  generalize mergeLoop p.space (s.putRun p.space).m_runs = r at hmerged hdepths ⊢
  have hhead : r.2.head?.map (·.run_depth) = (k.flush false).depths.head? := by
    rw [← hdepths, depths, List.head?_map]
  generalize hafter : ({ s.putRun p.space with m_runs := r.2 } : scb) = after
  have hruns' : after.m_runs = r.2 := by rw [← hafter]
  have hsize : after.m_size_memory = s.m_size_memory := by rw [← hafter]; rfl
  have hmax : after.m_max_alloc_size = s.m_max_alloc_size := by rw [← hafter]; rfl
  have hlongs : after.m_longs = s.m_longs := by rw [← hafter]; rfl
  have hsmall : after.Small ↔ s.Small := by rw [Small, Small, hsize, hmax]
  rw [init, hruns', ← hlongs]
  by_cases hcarries : k.Carries
  · have hlast : r.2.head?.map (·.run_depth) = some MAX_MERGE_LEVEL := by
      rw [hhead, Counts.flush_of_carries hcarries]
      rfl
    by_cases hgrows : s.Small ∧ p.alloc = true
    · have hones' : depths after.grow.m_runs = (Counts.mk 0 (k.twos + 1) 0).depths := by
        have hmap : depths after.grow.m_runs =
            (depths r.2).map fun depth => (depth + (2 ^ 16 - 1)) % 2 ^ 16 := by
          simp [depths, grow, hruns', Function.comp_def]
        rw [hmap, hdepths, Counts.flush_of_carries hcarries]
        simp [Counts.depths]
      rw [if_pos ⟨hsmall.2 hgrows.1, hlast, hgrows.2⟩, if_pos ⟨hcarries, hgrows⟩, decide_eq_true hgrows,
        Counts.flush_of_carries hcarries, ← hmax]
      exact ⟨hmerged, hones', rfl, rfl, rfl, rfl, rfl⟩
    · rw [if_neg (fun hif => hgrows ⟨hsmall.1 hif.1, hif.2.2⟩), if_neg (fun hif => hgrows hif.2),
        decide_eq_false hgrows, ← hsize, ← hmax]
      exact ⟨hmerged, (congrArg depths hruns').trans hdepths, rfl, rfl, rfl, rfl, rfl⟩
  · rw [if_neg (fun hif => Counts.head_flush_of_not_carries hcarries (hhead ▸ hif.2.1)),
      if_neg (fun hif => hcarries hif.1), Counts.flush_of_not_carries hcarries, ← hsize, ← hmax]
    exact ⟨hmerged, (congrArg depths hruns').trans hdepths, rfl, rfl, rfl, rfl, rfl⟩

end scb

end FirebirdCore.Sort
