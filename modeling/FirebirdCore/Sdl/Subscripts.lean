import FirebirdCore.Lib.Interval
import FirebirdCore.Sdl.GetRange
import FirebirdCore.Sdl.Safety

/-!
# The subscripts of a run

The subscripts that the machine evaluates are in the bounds that `SDL_info` reports, as long as the ends of a
range are those of the interval of all values.
-/
namespace FirebirdCore.Sdl
open Lib Lib.Machine

/-! ## Intervals of expressions -/

/-- The variables, as far as they are known. -/
abbrev Known := ℕ → Lib.Interval ℤ

def Operator.interval : Operator → Lib.Interval ℤ → Lib.Interval ℤ → Lib.Interval ℤ
  | add, I, J => I.add J
  | subtract, I, J => I.sub J
  | multiply, I, J => I.mul J
  | divide, I, _ => I

def Tree.interval (known : Known) : Tree → Lib.Interval ℤ
  | literal bytes => Lib.Interval.single (SLONG (Sdl.literal bytes))
  | var i => known i.toNat
  | binary o x y => o.interval (x.interval known) (y.interval known)
  | _ => Lib.Interval.single 0

/-- The subscripts, the first one first. -/
def Tree.intervals (known : Known) : Tree → List (Lib.Interval ℤ)
  | saved x rest => x.interval known :: rest.intervals known
  | _ => []

/-- The interval is one of 32-bit integers. -/
def FitsSLONG (I : Lib.Interval ℤ) : Prop :=
  -2 ^ 31 ≤ I.lower ∧ I.upper < 2 ^ 31 ∧ -2 ^ 31 ≤ I.upper ∧ I.lower < 2 ^ 31

/-- Of a product, the ends are the products of the lower and of the upper ends. -/
def EndsMultiply (I J : Lib.Interval ℤ) : Prop := I.mul J = ⟨I.lower * J.lower, I.upper * J.upper⟩

/-- Without negative subscripts, the ends multiply. -/
theorem endsMultiply_of_nonneg {I J : Lib.Interval ℤ} (hI : 0 ≤ I.lower) (hI' : I.lower ≤ I.upper)
    (hJ : 0 ≤ J.lower) (hJ' : J.lower ≤ J.upper) : EndsMultiply I J :=
  Lib.Interval.mul_of_nonneg hI hI' hJ hJ'

/-! ## Regular descriptions -/

/-- An expression without quotients, overflows and products that lose values. It uses none of the variables that
are stale. -/
def Tree.RegularExpr (known : Known) (stale : List ℕ) : Tree → Prop
  | literal _ => True
  | var i => i.toNat ∉ stale
  | binary o x y =>
      x.RegularExpr known stale ∧ y.RegularExpr known stale ∧ o ≠ .divide ∧
        FitsSLONG (o.interval (x.interval known) (y.interval known)) ∧
        (o = .multiply → EndsMultiply (x.interval known) (y.interval known))
  | _ => False

def Tree.RegularSubscripts (known : Known) (stale : List ℕ) : Tree → Prop
  | nothing => True
  | saved x rest => x.RegularExpr known stale ∧ rest.RegularSubscripts known stale
  | _ => False

/-- The variables of the loops. -/
def Tree.assigned : Tree → List ℕ
  | loop i _ _ _ body => i.toNat :: body.assigned
  | element _ parts => parts.assigned
  | saved x rest => x.assigned ++ rest.assigned
  | _ => []

theorem Tree.assigned_saved (x : Tree) : (saved x nothing).assigned = x.assigned := List.append_nil _

/-- What is known in the body of a loop. -/
def Known.loop (known : Known) (i : ℕ) (lower upper : Tree) : Known :=
  Function.update known i ⟨(lower.interval known).lower, (upper.interval known).upper⟩

/-- Loops around one element, the bounds and subscripts of which are regular. An upper bound does not use the
variable of its loop, no increment is negative, and the variable does not overflow. Inside a loop the variables of
the loops in its body are stale: they have what the round before has left there. -/
def Tree.Regular (known : Known) (stale : List ℕ) : Tree → Prop
  | loop i lower upper increment body =>
      lower.RegularExpr known stale ∧ upper.RegularExpr known (i.toNat :: stale) ∧
        increment.RegularExpr known stale ∧ 0 ≤ (increment.interval known).lower ∧
        -2 ^ 31 ≤ (lower.interval known).lower + (increment.interval known).lower ∧
        (upper.interval known).upper + (increment.interval known).upper < 2 ^ 31 ∧
        i.toNat ∉ body.assigned ∧ body.Regular (known.loop i.toNat lower upper) body.assigned
  | element _ parts => parts.Regular known stale
  | saved x rest => x.Regular known stale ∧ rest = nothing
  | scalar _ count subscripts =>
      subscripts.RegularSubscripts known stale ∧ (subscripts.intervals known).length = count
  | _ => False

/-- The bounds of the subscripts of the element. -/
def Tree.reported (known : Known) : Tree → List (Lib.Interval ℤ)
  | loop i lower upper _ body => body.reported (known.loop i.toNat lower upper)
  | element _ parts => parts.reported known
  | saved x _ => x.reported known
  | scalar _ _ subscripts => subscripts.intervals known
  | _ => []

/-! ## What is reported -/

/-- The ranges of the variables are those that are known. -/
def RangesKnown (arg : array_range) (known : Known) (except : List ℕ) : Prop :=
  ∀ i ∉ except, ∀ bounds, variableBounds i arg = .ok bounds → bounds = ((known i).lower, (known i).upper)

section Range
variable {known : Known} {stale except : List ℕ} {arg arg' : array_range} {bounds : Bounds} {slot : Option ℕ} {t : Tree}

theorem SLONG_of_fits {x : ℤ} (h : -2 ^ 31 ≤ x) (h' : x < 2 ^ 31) : SLONG x = x := by
  rw [SLONG, Int.bmod_eq_of_le] <;> norm_num <;> omega

theorem bind_eq_ok {ε α β : Type} {x : Except ε α} {f : α → Except ε β} {b : β} (h : x >>= f = .ok b) :
    ∃ a, x = .ok a ∧ f a = .ok b := by
  cases x with
  | error e => cases h
  | ok a => exact ⟨a, rfl, h⟩

theorem operatorBounds_eq {o : Operator} {I J : Lib.Interval ℤ} (ho : o ≠ .divide)
    (hfits : FitsSLONG (o.interval I J))
    (hends : o = .multiply → EndsMultiply I J) : operatorBounds o (some (I.lower, I.upper)) (some (J.lower, J.upper)) =
      .ok ((o.interval I J).lower, (o.interval I J).upper) := by
  obtain ⟨hlower, hupper, hupper', hlower'⟩ := hfits
  cases o with
  | add => exact congrArg Except.ok (Prod.ext (SLONG_of_fits hlower hlower') (SLONG_of_fits hupper' hupper))
  | subtract => exact congrArg Except.ok (Prod.ext (SLONG_of_fits hlower hlower') (SLONG_of_fits hupper' hupper))
  | multiply =>
    have hmul : Operator.multiply.interval I J = ⟨I.lower * J.lower, I.upper * J.upper⟩ := hends rfl
    rw [hmul] at hlower hupper hupper' hlower' ⊢
    exact congrArg Except.ok (Prod.ext (SLONG_of_fits hlower hlower') (SLONG_of_fits hupper' hupper))
  | divide => exact absurd rfl ho

/-- An expression does not change the ranges. -/
theorem range_expr_arg (ht : t.RegularExpr known stale) (h : t.range slot arg = .ok (arg', bounds)) : arg' = arg := by
  induction t generalizing slot arg arg' bounds with
  | literal bytes =>
    rw [Tree.range] at h
    cases h
    rfl
  | var i =>
    rw [Tree.range] at h
    obtain ⟨b, -, h⟩ := bind_eq_ok h
    cases h
    rfl
  | binary o x y ihx ihy =>
    obtain ⟨hx, hy, -⟩ := ht
    rw [Tree.range] at h
    obtain ⟨r, hr, h⟩ := bind_eq_ok h
    obtain ⟨r', hr', h⟩ := bind_eq_ok h
    obtain ⟨b, -, h⟩ := bind_eq_ok h
    cases h
    rw [ihy hy hr', ihx hx hr]
  | missing => exact ht.elim
  | unknown => exact ht.elim
  | nothing => exact ht.elim
  | saved => exact ht.elim
  | scalar => exact ht.elim
  | element => exact ht.elim
  | loop => exact ht.elim

theorem range_expr (ht : t.RegularExpr known stale) (hexcept : except ⊆ stale) (hagrees : RangesKnown arg known except)
    (h : t.range slot arg = .ok (arg', bounds)) :
    arg' = arg ∧ bounds = some ((t.interval known).lower, (t.interval known).upper) := by
  refine ⟨range_expr_arg ht h, ?_⟩
  induction t generalizing slot arg' bounds with
  | literal bytes =>
    rw [Tree.range] at h
    cases h
    rfl
  | var i =>
    rw [Tree.range] at h
    obtain ⟨b, hb, h⟩ := bind_eq_ok h
    cases h
    rw [hagrees _ (fun hi => ht (hexcept hi)) b hb]
    rfl
  | binary o x y ihx ihy =>
    obtain ⟨hx, hy, ho, hfits, hends⟩ := ht
    rw [Tree.range] at h
    obtain ⟨r, hr, h⟩ := bind_eq_ok h
    obtain ⟨r', hr', h⟩ := bind_eq_ok h
    obtain ⟨b, hb, h⟩ := bind_eq_ok h
    cases h
    rw [range_expr_arg hx hr] at hr'
    rw [ihx hx hr, ihy hy hr', operatorBounds_eq ho hfits hends] at hb
    cases hb
    rfl
  | missing => exact ht.elim
  | unknown => exact ht.elim
  | nothing => exact ht.elim
  | saved => exact ht.elim
  | scalar => exact ht.elim
  | element => exact ht.elim
  | loop => exact ht.elim

theorem store_eq {missing : RangeStop} {i : ℕ} {value : ℤ} {values values' : List ℤ}
    (h : store missing i (some value) values = .ok values') : i < values.length ∧ values' = values.set i value := by
  rw [store] at h
  split_ifs at h with hlt
  cases h
  exact ⟨hlt, rfl⟩

theorem storeMinimum_eq {i : ℕ} {value : ℤ} (h : storeMinimum i (some value) arg = .ok arg') :
    i < arg.rng_minima.length ∧ arg' = { arg with rng_minima := arg.rng_minima.set i value } := by
  obtain ⟨values, hstore, h⟩ := bind_eq_ok h
  obtain ⟨hlt, rfl⟩ := store_eq hstore
  cases h
  exact ⟨hlt, rfl⟩

theorem storeMaximum_eq {i : ℕ} {value : ℤ} (h : storeMaximum i (some value) arg = .ok arg') :
    i < arg.rng_maxima.length ∧ arg' = { arg with rng_maxima := arg.rng_maxima.set i value } := by
  obtain ⟨values, hstore, h⟩ := bind_eq_ok h
  obtain ⟨hlt, rfl⟩ := store_eq hstore
  cases h
  exact ⟨hlt, rfl⟩

theorem storeDimension_eq {n : ℕ} {min max : ℤ} (h : storeDimension n (some (min, max)) arg = .ok arg') :
    n < arg.rng_info.sdl_info_lower.length ∧ n < arg.rng_info.sdl_info_upper.length ∧
      arg' = { arg with rng_info := { arg.rng_info with
        sdl_info_lower := arg.rng_info.sdl_info_lower.set n min
        sdl_info_upper := arg.rng_info.sdl_info_upper.set n max } } := by
  obtain ⟨lower, hlower, h⟩ := bind_eq_ok h
  obtain ⟨upper, hupper, h⟩ := bind_eq_ok h
  obtain ⟨hlt, rfl⟩ := store_eq hlower
  obtain ⟨hlt', rfl⟩ := store_eq hupper
  cases h
  exact ⟨hlt, hlt', rfl⟩

theorem variableBounds_ok {i : ℕ} {b : ℤ × ℤ} (h : variableBounds i arg = .ok b) :
    arg.rng_minima[i]? = some b.1 ∧ arg.rng_maxima[i]? = some b.2 := by
  unfold variableBounds at h
  split at h
  · cases h
    exact ⟨‹_›, ‹_›⟩
  · cases h

theorem variableBounds_of_eq {i : ℕ} (hmin : arg'.rng_minima[i]? = arg.rng_minima[i]?)
    (hmax : arg'.rng_maxima[i]? = arg.rng_maxima[i]?) : variableBounds i arg' = variableBounds i arg := by
  rw [variableBounds, variableBounds, hmin, hmax]

theorem rangesKnown_minimum (hagrees : RangesKnown arg known []) (i : ℕ) (value : ℤ) :
    RangesKnown { arg with rng_minima := arg.rng_minima.set i value } known [i] := by
  intro j hj b hb
  have hne : i ≠ j := fun h => hj (List.mem_singleton.2 h.symm)
  refine hagrees j List.not_mem_nil b (Eq.trans (variableBounds_of_eq ?_ ?_).symm hb)
  · exact List.getElem?_set_ne hne
  · rfl

/-- Behind the bounds of a loop, the range of its variable is known. -/
theorem rangesKnown_loop (hagrees : RangesKnown arg known []) {i : ℕ} {lower upper : Tree}
    (hmin : i < arg.rng_minima.length) (hmax : i < arg.rng_maxima.length) :
    RangesKnown { arg with
        rng_minima := arg.rng_minima.set i (lower.interval known).lower
        rng_maxima := arg.rng_maxima.set i (upper.interval known).upper }
      (known.loop i lower upper) [] := by
  intro j _ b hb
  by_cases hj : i = j
  · subst hj
    obtain ⟨hb1, hb2⟩ := variableBounds_ok hb
    rw [List.getElem?_set_self hmin] at hb1
    rw [List.getElem?_set_self hmax] at hb2
    rw [Known.loop, Function.update_self]
    exact Prod.ext (Option.some.inj hb1).symm (Option.some.inj hb2).symm
  · rw [Known.loop, Function.update_of_ne (Ne.symm hj)]
    refine hagrees j List.not_mem_nil b (Eq.trans (variableBounds_of_eq ?_ ?_).symm hb)
    · exact List.getElem?_set_ne hj
    · exact List.getElem?_set_ne hj

/-- The dimensions and bounds that are reported. -/
structure sdl_info.Reports (info : sdl_info) (ranges : List (Lib.Interval ℤ)) : Prop where
  dimensions : info.sdl_info_dimensions = ranges.length
  lower : ∀ (i : ℕ) (I : Lib.Interval ℤ), ranges[i]? = some I → info.sdl_info_lower[i]? = some I.lower
  upper : ∀ (i : ℕ) (I : Lib.Interval ℤ), ranges[i]? = some I → info.sdl_info_upper[i]? = some I.upper

/-- The bounds from the `n`-th dimension on are those of the subscripts, and the ones before are kept. -/
theorem range_subscripts {n : ℕ} (ht : t.RegularSubscripts known stale) (hagrees : RangesKnown arg known [])
    (h : t.range (some n) arg = .ok (arg', bounds)) :
    arg'.rng_info.sdl_info_dimensions = arg.rng_info.sdl_info_dimensions ∧
    (∀ (i : ℕ) (I : Lib.Interval ℤ), (t.intervals known)[i]? = some I → arg'.rng_info.sdl_info_lower[n + i]? = some I.lower ∧
      arg'.rng_info.sdl_info_upper[n + i]? = some I.upper) ∧
    ∀ j < n, arg'.rng_info.sdl_info_lower[j]? = arg.rng_info.sdl_info_lower[j]? ∧
      arg'.rng_info.sdl_info_upper[j]? = arg.rng_info.sdl_info_upper[j]? := by
  induction t generalizing n arg arg' bounds with
  | nothing =>
    rw [Tree.range] at h
    cases h
    refine ⟨rfl, fun i I hI => ?_, fun j _ => ⟨rfl, rfl⟩⟩
    cases hI
  | saved x rest ihx ihrest =>
    obtain ⟨hx, hrest⟩ := ht
    rw [Tree.range] at h
    obtain ⟨r, hr, h⟩ := bind_eq_ok h
    obtain ⟨arg1, hstore, h⟩ := bind_eq_ok h
    obtain ⟨r', hr', h⟩ := bind_eq_ok h
    cases h
    obtain ⟨harg, hbounds⟩ := range_expr hx (List.nil_subset _) hagrees hr
    rw [hbounds, harg] at hstore
    obtain ⟨hlower, hupper, rfl⟩ := storeDimension_eq hstore
    obtain ⟨hdims, hreports, hbefore⟩ := ihrest hrest (by exact hagrees) hr'
    obtain ⟨hn, hn'⟩ := hbefore n n.lt_succ_self
    refine ⟨hdims, fun i I hI => ?_, fun j hj => ?_⟩
    · cases i with
      | zero =>
        cases hI
        rw [Nat.add_zero, hn, hn']
        exact ⟨List.getElem?_set_self hlower, List.getElem?_set_self hupper⟩
      | succ i =>
        have hshift : n + (i + 1) = n + 1 + i := by omega
        rw [hshift]
        exact hreports i I hI
    · obtain ⟨hj1, hj2⟩ := hbefore j (hj.trans n.lt_succ_self)
      exact ⟨hj1.trans (List.getElem?_set_ne hj.ne'), hj2.trans (List.getElem?_set_ne hj.ne')⟩
  | literal => exact ht.elim
  | var => exact ht.elim
  | binary => exact ht.elim
  | missing => exact ht.elim
  | unknown => exact ht.elim
  | scalar => exact ht.elim
  | element => exact ht.elim
  | loop => exact ht.elim

/-- What is reported for a regular description are the bounds of its subscripts. -/
theorem range_reports (ht : t.Regular known stale) (hagrees : RangesKnown arg known [])
    (h : t.range none arg = .ok (arg', bounds)) : arg'.rng_info.Reports (t.reported known) := by
  induction t generalizing known stale arg arg' bounds with
  | scalar value count subscripts =>
    obtain ⟨hsubscripts, hcount⟩ := ht
    rw [Tree.range] at h
    obtain ⟨r, hr, h⟩ := bind_eq_ok h
    cases h
    obtain ⟨hdims, hreports, -⟩ := range_subscripts hsubscripts (by exact hagrees) hr
    rw [Tree.reported]
    refine ⟨hdims.trans hcount.symm, fun i I hI => ?_, fun i I hI => ?_⟩
    · rw [← Nat.zero_add i]
      exact (hreports i I hI).1
    · rw [← Nat.zero_add i]
      exact (hreports i I hI).2
  | element count parts ih =>
    rw [Tree.range] at h
    exact ih ht hagrees h
  | saved x rest ihx _ =>
    obtain ⟨hx, rfl⟩ := ht
    rw [Tree.range] at h
    obtain ⟨r, hr, h⟩ := bind_eq_ok h
    obtain ⟨r', hr', h⟩ := bind_eq_ok h
    rw [Tree.range] at hr'
    cases hr'
    cases h
    exact ihx hx hagrees hr
  | loop i lower upper increment body ihl ihu ihi ihb =>
    obtain ⟨hlower, hupper, hincrement, -, -, -, -, hbody⟩ := ht
    rw [Tree.range] at h
    obtain ⟨r, hr, h⟩ := bind_eq_ok h
    obtain ⟨harg, hbounds⟩ := range_expr hlower (List.nil_subset _) hagrees hr
    obtain ⟨arg1, hmin, h⟩ := bind_eq_ok h
    rw [harg, hbounds] at hmin
    obtain ⟨hminlt, rfl⟩ := storeMinimum_eq hmin
    obtain ⟨r1, hr1, h⟩ := bind_eq_ok h
    obtain ⟨harg, hbounds⟩ := range_expr hupper (List.cons_subset_cons _ (List.nil_subset _))
      (rangesKnown_minimum hagrees _ _) hr1
    obtain ⟨arg2, hmax, h⟩ := bind_eq_ok h
    rw [harg, hbounds] at hmax
    obtain ⟨hmaxlt, rfl⟩ := storeMaximum_eq hmax
    obtain ⟨r2, hr2, h⟩ := bind_eq_ok h
    have harg := range_expr_arg hincrement hr2
    dsimp only at h
    rw [harg] at h
    exact ihb hbody (rangesKnown_loop hagrees hminlt hmaxlt) h
  | nothing => exact ht.elim
  | literal => exact ht.elim
  | var => exact ht.elim
  | binary => exact ht.elim
  | missing => exact ht.elim
  | unknown => exact ht.elim

end Range

/-! ## Runs -/

/-- The subscripts that the machine is about to use are in the bounds that are reported. -/
def SubscriptsIn (w : Walk) (info : sdl_info) (s : State) : Prop :=
  w.sdl_arg_compiled[s.next]? = some op_scalar → ∀ i < info.sdl_info_dimensions, ∃ n lower upper,
    s.stack[i]? = some n ∧ info.sdl_info_lower[i]? = some lower ∧ info.sdl_info_upper[i]? = some upper ∧
      lower ≤ n ∧ n ≤ upper

/-- The variables that are not stale have values that are known. -/
def VariablesKnown (vars : List ℤ) (known : Known) (stale : List ℕ) : Prop :=
  ∀ i ∉ stale, ∀ v, vars[i]? = some v → v ∈ known i

section Expr
variable {w : Walk} {info : sdl_info} {known : Known} {stale : List ℕ} {n pc : ℕ} {s : State} {t : Tree}

theorem subscriptsIn_of_ne {x : ℤ} (hop : w.sdl_arg_compiled[s.next]? = some x) (hne : x ≠ op_scalar) :
    SubscriptsIn w info s := fun h => by
  rw [hop] at h
  exact absurd (Option.some.inj h) hne

theorem push_stays {value : ℤ} {next : ℕ} (hP : SubscriptsIn w info s)
    (hstep : step w s = push value { s with next })
    (k : Stays (step w) (SubscriptsIn w info) n { s with next, stack := value :: s.stack }) :
    Stays (step w) (SubscriptsIn w info) n s := by
  rw [push] at hstep
  split_ifs at hstep
  · exact .of_error hP hstep
  · exact .of_step hP hstep k

theorem Operator.apply_mem {o : Operator} {I J : Lib.Interval ℤ} {x y : ℤ} (ho : o ≠ .divide)
    (hfits : FitsSLONG (o.interval I J)) (hx : x ∈ I) (hy : y ∈ J) :
    ∃ z ∈ o.interval I J, o.apply x y = some z := by
  have hvalue (z : ℤ) (hz : z ∈ o.interval I J) : SLONG z = z :=
    SLONG_of_fits (hfits.1.trans hz.1) (hz.2.trans_lt hfits.2.1)
  cases o with
  | add => exact ⟨_, Lib.Interval.add_mem hx hy, congrArg some (hvalue _ (Lib.Interval.add_mem hx hy))⟩
  | subtract => exact ⟨_, Lib.Interval.sub_mem hx hy, congrArg some (hvalue _ (Lib.Interval.sub_mem hx hy))⟩
  | multiply => exact ⟨_, Lib.Interval.mul_mem hx hy, congrArg some (hvalue _ (Lib.Interval.mul_mem hx hy))⟩
  | divide => exact absurd rfl ho

/-- A run goes on behind an expression if it does with every value in the interval. -/
theorem expr_stays (ht : t.RegularExpr known stale) (hcode : CodeAt w.sdl_arg_compiled pc (t.code pc))
    (hnext : s.next = pc) (hvars : VariablesKnown s.sdl_arg_variables known stale)
    (k : ∀ v ∈ t.interval known, Stays (step w) (SubscriptsIn w info) n
      { s with next := pc + (t.code pc).length, stack := v :: s.stack }) :
    Stays (step w) (SubscriptsIn w info) n s := by
  induction t generalizing pc s with
  | literal bytes =>
    obtain ⟨hop, hcode⟩ := codeAt_cons.1 hcode
    obtain ⟨hvalue, -⟩ := codeAt_cons.1 hcode
    subst hnext
    have hstep : step w s = push (SLONG (Sdl.literal bytes)) { s with next := s.next + 2 } := by
      simp [step, word, hop, hvalue]
    exact push_stays (subscriptsIn_of_ne hop (by decide)) hstep (k _ (Lib.Interval.mem_single _))
  | var i =>
    obtain ⟨hop, hcode⟩ := codeAt_cons.1 hcode
    obtain ⟨hi, -⟩ := codeAt_cons.1 hcode
    subst hnext
    have hP : SubscriptsIn w info s := subscriptsIn_of_ne hop (by decide)
    cases hvar : s.sdl_arg_variables[i.toNat]? with
    | none =>
      have hstep : step w s = fault .noVariable s := by
        simp [step, word, hop, hi, hvar, op_variable, op_literal]
      exact .of_error hP hstep
    | some v =>
      have hstep : step w s = push v { s with next := s.next + 2 } := by
        simp [step, word, hop, hi, hvar, op_variable, op_literal]
      exact push_stays hP hstep (k v (hvars _ ht v hvar))
  | binary o x y ihx ihy =>
    obtain ⟨hx, hy, ho, hfits, -⟩ := ht
    obtain ⟨hcodex, hcode⟩ := codeAt_append.1 hcode
    obtain ⟨hcodey, hcode⟩ := codeAt_append.1 hcode
    obtain ⟨hop, -⟩ := codeAt_cons.1 hcode
    refine ihx hx hcodex hnext hvars fun vx hvx => ?_
    refine ihy hy hcodey rfl hvars fun vy hvy => ?_
    obtain ⟨z, hz, happly⟩ := Operator.apply_mem ho hfits hvx hvy
    have hstep := step_arithmetic (s := { s with
        next := pc + (x.code pc).length + (y.code (pc + (x.code pc).length)).length, stack := vy :: vx :: s.stack }) hop
    rw [arithmetic] at hstep
    dsimp only at hstep
    rw [happly] at hstep
    refine .of_step (subscriptsIn_of_ne hop (by cases o <;> decide)) hstep ?_
    have hlength : (Tree.code pc (.binary o x y)).length =
        (x.code pc).length + ((y.code (pc + (x.code pc).length)).length + 1) := by
      rw [Tree.code, List.length_append, List.length_append, List.length_singleton]
    have hk := k z hz
    rw [hlength, ← Nat.add_assoc, ← Nat.add_assoc] at hk
    exact hk
  | missing => exact ht.elim
  | unknown => exact ht.elim
  | nothing => exact ht.elim
  | saved => exact ht.elim
  | scalar => exact ht.elim
  | element => exact ht.elim
  | loop => exact ht.elim

theorem subscripts_stays (ht : t.RegularSubscripts known stale) (hcode : CodeAt w.sdl_arg_compiled pc (t.code pc))
    (hnext : s.next = pc) (hvars : VariablesKnown s.sdl_arg_variables known stale)
    (k : ∀ vs, List.Forall₂ (· ∈ ·) vs (t.intervals known) → Stays (step w) (SubscriptsIn w info) n
      { s with next := pc + (t.code pc).length, stack := vs ++ s.stack }) :
    Stays (step w) (SubscriptsIn w info) n s := by
  induction t generalizing pc s with
  | nothing =>
    subst hnext
    exact k [] .nil
  | saved x rest ihx ihrest =>
    obtain ⟨hx, hrest⟩ := ht
    obtain ⟨hcoderest, hcodex⟩ := codeAt_append.1 hcode
    refine ihrest hrest hcoderest hnext hvars fun vs hvs => ?_
    refine expr_stays hx hcodex rfl hvars fun v hv => ?_
    have hlength : (Tree.code pc (.saved x rest)).length =
        (rest.code pc).length + (x.code (pc + (rest.code pc).length)).length := by
      rw [Tree.code, List.length_append]
    have hk := k (v :: vs) (.cons hv hvs)
    rw [hlength, ← Nat.add_assoc] at hk
    exact hk
  | literal => exact ht.elim
  | var => exact ht.elim
  | binary => exact ht.elim
  | missing => exact ht.elim
  | unknown => exact ht.elim
  | scalar => exact ht.elim
  | element => exact ht.elim
  | loop => exact ht.elim

/-- The subscripts are popped. -/
theorem executeScalar_stack {x : ℤ} {vs stack : List ℤ} (hstack : s.stack = vs ++ stack)
    (hlength : vs.length = w.sdl_arg_desc.iad_dimensions) :
    (∃ stop, executeScalar w x s = .error (stop, s)) ∨
      ∃ desc, executeScalar w x s = .ok { s with next := s.next + 3, stack, element_desc := some desc } := by
  rw [executeScalar]
  split_ifs with hshort
  · exact .inl ⟨_, rfl⟩
  · have htake : vs.length = (w.sdl_arg_desc.iad_rpt.take w.sdl_arg_desc.iad_dimensions).length := by
      rw [List.length_take, hlength]
      omega
    have hspec := subscripts_spec _ vs stack htake 0
    rw [hstack]
    cases houtside : outside? (w.sdl_arg_desc.iad_rpt.take w.sdl_arg_desc.iad_dimensions) vs with
    | some e =>
      rw [houtside] at hspec
      rw [hspec]
      exact .inl ⟨_, rfl⟩
    | none =>
      rw [houtside] at hspec
      obtain ⟨y, hy, -⟩ := hspec
      rw [hy]
      dsimp only
      cases w.sdl_arg_desc.iad_rpt[x.toNat]? with
      | none => exact .inl ⟨_, rfl⟩
      | some range => exact .inr ⟨_, rfl⟩

theorem iterate_stays {i exit again : ℕ} {value increment upper : ℤ} {stack : List ℤ} {s' : State}
    (hP : SubscriptsIn w info s) (hstep : step w s = iterate i value exit again s')
    (hstack : s'.stack = increment :: upper :: stack)
    (hexit : Stays (step w) (SubscriptsIn w info) n
      { s' with next := exit, stack, sdl_arg_variables := s'.sdl_arg_variables.set i value })
    (hagain : value ≤ upper → Stays (step w) (SubscriptsIn w info) n
      { s' with next := again, sdl_arg_variables := s'.sdl_arg_variables.set i value }) :
    Stays (step w) (SubscriptsIn w info) n s := by
  obtain ⟨next, stack', vars, desc, argument, calls⟩ := s'
  subst hstack
  rw [iterate] at hstep
  dsimp only at hstep
  split_ifs at hstep with habove
  · exact .of_step hP hstep hexit
  · exact .of_step hP hstep (hagain (Int.not_lt.1 habove))

/-- The body of a loop as it is run in each round: behind it, the variables of its loops have changed at most. -/
def BodyStays (w : Walk) (info : sdl_info) (known : Known) (assigned : List ℕ) (label inner : ℕ) : Prop :=
  ∀ (n : ℕ) (s : State), s.next = label → VariablesKnown s.sdl_arg_variables known assigned →
    (∀ s' : State, s'.next = inner → s'.stack = s.stack →
      (∀ j ∉ assigned, s'.sdl_arg_variables[j]? = s.sdl_arg_variables[j]?) →
      Stays (step w) (SubscriptsIn w info) n s') →
    Stays (step w) (SubscriptsIn w info) n s

theorem variablesKnown_update {vars : List ℤ} {i : ℕ} {assigned : List ℕ} {I : Lib.Interval ℤ} {value : ℤ}
    (hknown : VariablesKnown vars known (i :: assigned)) (hvar : vars[i]? = some value) (hvalue : value ∈ I) :
    VariablesKnown vars (Function.update known i I) assigned := by
  intro j hj v hv
  by_cases hne : j = i
  · subst hne
    rw [hvar] at hv
    cases hv
    rwa [Function.update_self]
  · rw [Function.update_of_ne hne]
    exact hknown j (List.not_mem_cons_of_ne_of_not_mem hne hj) v hv

/-- The rounds of a loop. The increment and the upper bound stay on the stack. -/
theorem rounds_stay {i label inner exit : ℕ} {increment upper lowest greatest : ℤ} {stack : List ℤ}
    {assigned : List ℕ} {vars : List ℤ}
    (hbody : BodyStays w info (Function.update known i ⟨lowest, greatest⟩) assigned (label + 3) inner)
    (hiterate : CodeAt w.sdl_arg_compiled label [op_iterate, (i : ℤ), (exit : ℤ)])
    (hgoto : CodeAt w.sdl_arg_compiled inner [op_goto, (label : ℤ)]) (hi : i ∉ assigned)
    (hincrement : 0 ≤ increment) (hlowest : -2 ^ 31 ≤ lowest + increment) (hgreatest : greatest + increment < 2 ^ 31)
    (hupper : upper ≤ greatest)
    (hexit : ∀ s' : State, s'.next = exit → s'.stack = stack →
      (∀ j ∉ i :: assigned, s'.sdl_arg_variables[j]? = vars[j]?) → Stays (step w) (SubscriptsIn w info) n s')
    {value : ℤ} (hvalue : lowest ≤ value ∧ value ≤ upper) (hnext : s.next = label + 3)
    (hstack : s.stack = increment :: upper :: stack) (hvar : s.sdl_arg_variables[i]? = some value)
    (hknown : VariablesKnown s.sdl_arg_variables known (i :: assigned))
    (hsame : ∀ j ∉ i :: assigned, s.sdl_arg_variables[j]? = vars[j]?) :
    Stays (step w) (SubscriptsIn w info) n s := by
  obtain ⟨hopi, hi'⟩ := codeAt_cons.1 hiterate
  obtain ⟨hi', hexit'⟩ := codeAt_cons.1 hi'
  obtain ⟨hexit', -⟩ := codeAt_cons.1 hexit'
  obtain ⟨hopg, htarget⟩ := codeAt_cons.1 hgoto
  obtain ⟨htarget, -⟩ := codeAt_cons.1 htarget
  induction n generalizing s value with
  | zero =>
    refine hbody 0 s hnext (variablesKnown_update hknown hvar ⟨hvalue.1, hvalue.2.trans hupper⟩) fun s' hnext' _ _ => ?_
    rw [← hnext'] at hopg
    exact .zero (subscriptsIn_of_ne hopg (by decide))
  | succ n ih =>
    refine hbody (n + 1) s hnext (variablesKnown_update hknown hvar ⟨hvalue.1, hvalue.2.trans hupper⟩)
      fun s' hnext' hstack' hsame' => ?_
    have hvar' : s'.sdl_arg_variables[i]? = some value := (hsame' i hi).trans hvar
    obtain ⟨hlt, hget⟩ := List.getElem?_eq_some_iff.1 hvar'
    have hgetD : s'.sdl_arg_variables.getD i 0 = value := by
      rw [List.getD_eq_getElem?_getD, hvar', Option.getD_some]
    have hback : step w s' = .ok { s' with next := label } := by
      rw [← hnext'] at hopg htarget
      exact step_goto hopg htarget
    have hopg' : w.sdl_arg_compiled[s'.next]? = some op_goto := by rw [hnext', hopg]
    refine .succ (subscriptsIn_of_ne hopg' (by decide)) hback ?_
    have hsum : SLONG (value + increment) = value + increment := SLONG_of_fits (by omega) (by omega)
    have hround := step_iterate (s := { s' with next := label }) hopi hi' hexit' hlt (hstack'.trans hstack)
    dsimp only at hround
    rw [hgetD, hsum] at hround
    refine iterate_stays (subscriptsIn_of_ne hopi (by decide)) hround (hstack'.trans hstack) ?_ fun hle => ?_
    · refine (hexit _ rfl rfl fun j hj => ?_).mono n.le_succ
      have hne : i ≠ j := fun h => hj (h ▸ List.mem_cons_self ..)
      exact (List.getElem?_set_ne hne).trans ((hsame' j fun h => hj (List.mem_cons_of_mem _ h)).trans (hsame j hj))
    · refine ih (fun s' h1 h2 h3 => (hexit s' h1 h2 h3).mono n.le_succ) ⟨by omega, hle⟩ rfl (hstack'.trans hstack)
        (List.getElem?_set_self hlt) (fun j hj v hv => ?_) fun j hj => ?_
      · have hne : i ≠ j := fun h => hj (h ▸ List.mem_cons_self ..)
        rw [List.getElem?_set_ne hne, hsame' j fun h => hj (List.mem_cons_of_mem _ h)] at hv
        exact hknown j hj v hv
      · have hne : i ≠ j := fun h => hj (h ▸ List.mem_cons_self ..)
        exact (List.getElem?_set_ne hne).trans ((hsame' j fun h => hj (List.mem_cons_of_mem _ h)).trans (hsame j hj))

theorem loop_stays {i exit : ℕ} {first increment upper lowest greatest : ℤ} {stack : List ℤ}
    {assigned : List ℕ} {inner : ℕ}
    (hbody : BodyStays w info (Function.update known i ⟨lowest, greatest⟩) assigned (pc + 1 + 3) inner)
    (hcode : CodeAt w.sdl_arg_compiled pc [op_loop, op_iterate, (i : ℤ), (exit : ℤ)])
    (hgoto : CodeAt w.sdl_arg_compiled inner [op_goto, ((pc + 1 : ℕ) : ℤ)]) (hi : i ∉ assigned)
    (hincrement : 0 ≤ increment) (hlowest : -2 ^ 31 ≤ lowest + increment) (hgreatest : greatest + increment < 2 ^ 31)
    (hfirst : lowest ≤ first) (hupper : upper ≤ greatest) (hnext : s.next = pc)
    (hstack : s.stack = first :: increment :: upper :: stack)
    (hknown : VariablesKnown s.sdl_arg_variables known (i :: assigned))
    (hexit : ∀ s' : State, s'.next = exit → s'.stack = stack →
      (∀ j ∉ i :: assigned, s'.sdl_arg_variables[j]? = s.sdl_arg_variables[j]?) →
      Stays (step w) (SubscriptsIn w info) n s') :
    Stays (step w) (SubscriptsIn w info) n s := by
  obtain ⟨hop, hiterate⟩ := codeAt_cons.1 hcode
  obtain ⟨-, hi'⟩ := codeAt_cons.1 hiterate
  obtain ⟨hi', hexit'⟩ := codeAt_cons.1 hi'
  obtain ⟨hexit', -⟩ := codeAt_cons.1 hexit'
  subst hnext
  have hP : SubscriptsIn w info s := subscriptsIn_of_ne hop (by decide)
  by_cases hlt : i < s.sdl_arg_variables.length
  · have hsame (j : ℕ) (hj : j ∉ i :: assigned) :
        (s.sdl_arg_variables.set i first)[j]? = s.sdl_arg_variables[j]? := by
      have hne : i ≠ j := fun h => hj (h ▸ List.mem_cons_self ..)
      exact List.getElem?_set_ne hne
    refine iterate_stays hP (step_loop hop hi' hexit' hlt hstack) rfl (hexit _ rfl rfl hsame) fun hle => ?_
    refine rounds_stay hbody hiterate hgoto hi hincrement hlowest hgreatest hupper hexit ⟨hfirst, hle⟩ rfl rfl
      (List.getElem?_set_self hlt) (fun j hj v hv => ?_) hsame
    rw [hsame j hj] at hv
    exact hknown j hj v hv
  · have hstep : step w s = fault .noVariable s := by
      simp [step, word, hop, hi', hexit', hstack, hlt, op_loop, op_goto, op_variable, op_literal, op_add,
        op_subtract, op_multiply, op_divide]
    exact .of_error hP hstep

/-- The subscripts are in their bounds through all of a regular description. -/
theorem regular_stays (ht : t.Regular known stale) (hstale : stale ⊆ t.assigned)
    (hcomplete : (t.extent (some w.sdl_arg_desc)).ending = .complete)
    (hcode : CodeAt w.sdl_arg_compiled pc (t.code pc)) (hreports : info.Reports (t.reported known))
    (hnext : s.next = pc) (hvars : VariablesKnown s.sdl_arg_variables known stale)
    (k : ∀ s' : State, s'.next = pc + (t.code pc).length → s'.stack = s.stack →
      (∀ j ∉ t.assigned, s'.sdl_arg_variables[j]? = s.sdl_arg_variables[j]?) →
      Stays (step w) (SubscriptsIn w info) n s') :
    Stays (step w) (SubscriptsIn w info) n s := by
  induction t generalizing known stale pc n s with
  | scalar value count subscripts ih =>
    obtain ⟨hsubscripts, hcount⟩ := ht
    simp only [Tree.extent, Extent.andThen_complete] at hcomplete
    obtain ⟨hcodes, hcode⟩ := codeAt_append.1 hcode
    obtain ⟨hop, hcode⟩ := codeAt_cons.1 hcode
    obtain ⟨hvalue, -⟩ := codeAt_cons.1 hcode
    have hdimensions : count = w.sdl_arg_desc.iad_dimensions := by
      by_contra hne
      have := hcomplete.1
      rw [subscriptsChecked, if_neg hne] at this
      cases this
    refine subscripts_stays hsubscripts hcodes hnext hvars fun vs hvs => ?_
    have hP : SubscriptsIn w info { s with next := pc + (subscripts.code pc).length, stack := vs ++ s.stack } := by
      intro _ j hj
      rw [hreports.dimensions] at hj
      have hj' : j < vs.length := hvs.length_eq ▸ hj
      obtain ⟨hle, hge⟩ := hvs.get hj' hj
      have hrange := List.getElem?_eq_getElem hj
      exact ⟨vs[j], _, _, (List.getElem?_append_left hj').trans (List.getElem?_eq_getElem hj'),
        hreports.lower j _ hrange, hreports.upper j _ hrange, hle, hge⟩
    have hlength : vs.length = w.sdl_arg_desc.iad_dimensions := by rw [hvs.length_eq, hcount, hdimensions]
    have hstep := step_scalar
      (s := { s with next := pc + (subscripts.code pc).length, stack := vs ++ s.stack }) hop hvalue
    have hend : pc + (Tree.code pc (.scalar value count subscripts)).length = pc + (subscripts.code pc).length + 3 := by
      rw [Tree.code, List.length_append, Nat.add_assoc]
      rfl
    obtain ⟨stop, herror⟩ | ⟨desc, hok⟩ := executeScalar_stack (w := w) (x := (value.toNat : ℤ))
      (s := { s with next := pc + (subscripts.code pc).length, stack := vs ++ s.stack }) rfl hlength
    · exact .of_error hP (hstep.trans herror)
    · exact .of_step hP (hstep.trans hok) (k _ hend.symm rfl fun j _ => rfl)
  | element count parts ih =>
    simp only [Tree.extent, Extent.andThen_complete] at hcomplete
    obtain ⟨hparts, hcode⟩ := codeAt_append.1 hcode
    obtain ⟨hop, hcode⟩ := codeAt_cons.1 hcode
    obtain ⟨hcount, -⟩ := codeAt_cons.1 hcode
    refine ih ht hstale hcomplete.2.2.2.1 hparts hreports hnext hvars fun s' hnext' hstack hsame => ?_
    rw [← hnext'] at hop hcount
    have hP : SubscriptsIn w info s' := subscriptsIn_of_ne hop (by decide)
    have hstep := step_element hop hcount
    have hend : pc + (Tree.code pc (.element count parts)).length = s'.next + 2 := by
      rw [hnext', Tree.code, List.length_append, Nat.add_assoc]
      rfl
    rw [executeElement] at hstep
    cases hdesc : s'.element_desc with
    | none =>
      rw [hdesc] at hstep
      exact .of_error hP hstep
    | some desc =>
      rw [hdesc] at hstep
      dsimp only at hstep
      cases hargument : (Sdl.element w s'.argument (count : ℤ).toNat desc).2 with
      | none =>
        rw [hargument] at hstep
        exact .of_error hP hstep
      | some argument =>
        rw [hargument] at hstep
        exact .of_step hP hstep (k _ hend.symm hstack hsame)
  | saved x rest ihx _ =>
    obtain ⟨hx, rfl⟩ := ht
    simp only [Tree.extent, Extent.andThen_complete] at hcomplete
    rw [Tree.assigned_saved] at hstale k
    exact ihx hx hstale hcomplete.2 hcode hreports hnext hvars k
  | loop i lower upper increment body ihl ihu ihi ihb =>
    obtain ⟨hlower, hupper, hincrement, hnonneg, hlowest, hgreatest, hi, hbody⟩ := ht
    simp only [Tree.extent, Extent.andThen_complete] at hcomplete
    obtain ⟨-, -, -, -, -, hcomplete, -⟩ := hcomplete
    have hend : pc + ((Tree.loop i lower upper increment body).code pc).length =
        pc + (upper.code pc ++ increment.code (pc + (upper.code pc).length) ++ lower.code (pc +
          (upper.code pc ++ increment.code (pc + (upper.code pc).length)).length)).length + 1 + 3 +
        (body.code (pc + (upper.code pc ++ increment.code (pc + (upper.code pc).length) ++ lower.code (pc +
          (upper.code pc ++ increment.code (pc + (upper.code pc).length)).length)).length + 1 + 3)).length +
        2 := by
      simp only [Tree.code, List.length_append, List.length_cons, List.length_nil]
      omega
    rw [hend] at k
    rw [Tree.code] at hcode
    obtain ⟨hbounds, hcode⟩ := codeAt_append.1 hcode
    obtain ⟨hhead, hcode⟩ := codeAt_append.1 hcode
    obtain ⟨hinner, hgoto⟩ := codeAt_append.1 hcode
    obtain ⟨hboth, hfirst⟩ := codeAt_append.1 hbounds
    obtain ⟨hlast, hnextcode⟩ := codeAt_append.1 hboth
    have hvars' : VariablesKnown s.sdl_arg_variables known (i.toNat :: stale) :=
      fun j hj => hvars j fun h => hj (List.mem_cons_of_mem _ h)
    refine expr_stays hupper hlast hnext hvars' fun up hup => ?_
    refine expr_stays hincrement hnextcode rfl hvars fun inc hinc => ?_
    rw [Nat.add_assoc pc, ← List.length_append]
    refine expr_stays hlower hfirst rfl hvars fun first hfirst' => ?_
    rw [Nat.add_assoc pc, ← List.length_append]
    have hknown : VariablesKnown s.sdl_arg_variables known (i.toNat :: body.assigned) :=
      fun j hj => hvars j fun h => hj (hstale h)
    refine loop_stays (fun n s hnext hknown k => ?_) hhead hgoto hi (hnonneg.trans hinc.1)
      (hlowest.trans (add_le_add_right hinc.1 _)) ((add_le_add_right hinc.2 _).trans_lt hgreatest) hfirst'.1 hup.2 rfl rfl
      hknown k
    exact ihb hbody (List.Subset.refl _) hcomplete hinner hreports hnext hknown k
  | nothing => exact ht.elim
  | literal => exact ht.elim
  | var => exact ht.elim
  | binary => exact ht.elim
  | missing => exact ht.elim
  | unknown => exact ht.elim

end Expr

/-! ## Descriptions -/

/-- The code of the element behind the clauses in front of it. -/
def ElementCode (w : Walk) (sdl : List UInt8) (code : List ℤ) : Prop :=
  ∃ p p', infoClauses sdl.length sdl.length (sdl.drop 1) = .ok p ∧
    compileDescription w.sdl_arg_desc sdl.length p = .ok (p', code)

/-- What is known at first are the values of the variables. -/
def RegularDescription (sdl : List UInt8) (vars : List ℤ) : Prop :=
  ∀ p, infoClauses sdl.length sdl.length (sdl.drop 1) = .ok p →
    (parse p.length p).1.Regular (fun i => Lib.Interval.single (vars.getD i 0)) []

section Description
variable {w : Walk} {sdl p : List UInt8} {vars : List ℤ} {argument : array_slice} {info info' : sdl_info} {code : List ℤ}

theorem elementInfo_reports (ht : (parse p.length p).1.Regular (fun i => Lib.Interval.single (vars.getD i 0)) [])
    (hinfo : elementInfo p info vars = .ok info') (hreported : info'.sdl_info_dimensions ≠ 0) :
    info'.Reports ((parse p.length p).1.reported fun i => Lib.Interval.single (vars.getD i 0)) := by
  have hknown : RangesKnown ⟨vars, vars, { info with sdl_info_dimensions := 0 }⟩
      (fun i => Lib.Interval.single (vars.getD i 0)) [] := by
    intro i _ b hb
    obtain ⟨hmin, hmax⟩ := variableBounds_ok hb
    dsimp only [Lib.Interval.single]
    rw [List.getD_eq_getElem?_getD, hmin, Option.getD_some]
    exact Prod.ext rfl (Option.some.inj (hmax.symm.trans hmin))
  rw [elementInfo, get_range_eq] at hinfo
  cases hrange : (parse p.length p).1.range none ⟨vars, vars, { info with sdl_info_dimensions := 0 }⟩ with
  | error stop =>
    rw [hrange] at hinfo
    cases stop <;> cases hinfo
    exact absurd rfl hreported
  | ok r =>
    obtain ⟨arg', bounds⟩ := r
    rw [hrange] at hinfo
    dsimp only [Except.map] at hinfo
    have hreports := range_reports ht hknown hrange
    cases hrest : (parse p.length p).2 with
    | nil =>
      rw [hrest] at hinfo
      cases hinfo
    | cons op rest =>
      rw [hrest] at hinfo
      dsimp only at hinfo
      split_ifs at hinfo <;> cases hinfo
      · exact hreports
      · exact absurd rfl hreported

theorem SDL_info_element (hclauses : infoClauses sdl.length sdl.length (sdl.drop 1) = .ok p)
    (hinfo : SDL_info sdl info (some vars) = .ok info') : elementInfo p info vars = .ok info' := by
  cases sdl with
  | nil => cases hinfo
  | cons version rest =>
    rw [List.drop_one, List.tail_cons] at hclauses
    rw [SDL_info] at hinfo
    split_ifs at hinfo
    rw [hclauses] at hinfo
    dsimp only at hinfo
    cases helement : elementInfo p info vars with
    | error stop =>
      rw [helement] at hinfo
      cases hinfo
    | ok result =>
      rw [helement] at hinfo
      cases hinfo
      rfl

/-- A structure of one descriptor is skipped the same way in a walk. -/
theorem skipHeader_of_infoHeader {sdl_length : ℕ} {op : UInt8} {q : List UInt8}
    (h : infoHeader sdl_length op p = .ok q) : skipHeader sdl_length op p = .ok q := by
  rw [infoHeader] at h
  split_ifs at h with hstruct
  · rw [skipHeader, if_pos hstruct]
    obtain ⟨⟨n, p1⟩, hnext, h⟩ := bind_eq_ok h
    rw [hnext]
    dsimp only [bind, Except.bind] at h ⊢
    split_ifs at h with hn
    rw [not_not.1 hn]
    have hone : (1 : UInt8).toNat = 1 := rfl
    rw [hone, skipStruct]
    cases hdesc : sdl_desc p1 with
    | error e =>
      rw [hdesc] at h
      cases h
    | ok desc =>
      rw [hdesc] at h
      cases desc with
      | none => cases h
      | some p2 =>
        cases h
        rfl
  · exact h

/-- A walk gets to the element for which the bounds are reported. -/
theorem walkClauses_infoClauses {sdl_length fuel : ℕ} {q : List UInt8}
    (h : infoClauses sdl_length fuel p = .ok q) (steps : ℕ) :
    ∃ fuel' op rest, q = op :: rest ∧ op ∉ headers ∧
      walkClauses w sdl_length steps fuel p vars argument =
        walkClauses w sdl_length steps (fuel' + 1) q vars argument := by
  induction fuel generalizing p with
  | zero => cases h
  | succ fuel ih =>
    cases p with
    | nil => cases h
    | cons op p =>
      rw [infoClauses] at h
      split_ifs at h with hheader
      · obtain ⟨p1, hskip, h⟩ := bind_eq_ok h
        obtain ⟨fuel', op', rest, hq, hop, hwalk⟩ := ih h
        have heoc : op ≠ isc_sdl_eoc := by
          rintro rfl
          exact absurd hheader (by decide)
        rw [walkClauses_header heoc hheader, skipHeader_of_infoHeader hskip]
        exact ⟨fuel', op', rest, hq, hop, hwalk⟩
      · cases h
        exact ⟨fuel, op, p, rfl, hheader, rfl⟩

/-- What a walk executes is the code of the element. -/
theorem SDL_walk_elementCode (hcode : ElementCode w sdl code) (steps : ℕ) : ∃ fuel p',
    SDL_walk w steps sdl vars argument =
      match execute { w with sdl_arg_compiled := code } steps vars argument with
      | some (.ok (vars, argument)) => walkClauses w sdl.length steps fuel p' vars argument
      | result => result := by
  obtain ⟨p, p', hclauses, hcompile⟩ := hcode
  obtain ⟨fuel, op, rest, rfl, hheader, hwalk⟩ := walkClauses_infoClauses (w := w) hclauses steps
  have heoc : op ≠ isc_sdl_eoc := by
    rintro rfl
    cases hcompile
  exact ⟨fuel, p', hwalk.trans (walkClauses_element heoc hheader hcompile)⟩

/-- In every state that a run gets to, the subscripts are in the bounds that are reported, if the description is
regular. -/
theorem subscripts_in_reported_bounds (hinfo : SDL_info sdl info (some vars) = .ok info')
    (hreported : info'.sdl_info_dimensions ≠ 0) (hcode : ElementCode w sdl code)
    (hregular : RegularDescription sdl vars) (n : ℕ) (s : State)
    (hrun : run (step { w with sdl_arg_compiled := code }) n (entered vars argument) = .ok s) :
    SubscriptsIn { w with sdl_arg_compiled := code } info' s := by
  obtain ⟨p, p', hclauses, hcompile⟩ := hcode
  have ht := hregular p hclauses
  have hreports : info'.Reports ((parse p.length p).1.reported fun i => Lib.Interval.single (vars.getD i 0)) := by
    exact elementInfo_reports ht (SDL_info_element hclauses hinfo) hreported
  have hcomplete : ((parse p.length p).1.extent (some w.sdl_arg_desc)).ending = .complete := by
    by_contra hne
    have hincomplete := compileDescription_incomplete hne sdl.length
    rw [hcompile] at hincomplete
    split_ifs at hincomplete <;> obtain ⟨e, he⟩ := hincomplete <;> cases he
  have hcode : code = (parse p.length p).1.code 0 ++ [op_exit] := by
    have hcompiled := compileDescription_complete hcomplete sdl.length
    rw [hcompile] at hcompiled
    split_ifs at hcompiled
    · cases hcompiled
      rfl
    · obtain ⟨f, hf⟩ := hcompiled
      cases hf
  subst hcode
  obtain ⟨hbody, hexit⟩ := codeAt_append.1 (codeAt_zero ((parse p.length p).1.code 0 ++ [op_exit]))
  obtain ⟨hop, -⟩ := codeAt_cons.1 hexit
  have hvars : VariablesKnown vars (fun i => Lib.Interval.single (vars.getD i 0)) [] := by
    intro i _ v hv
    dsimp only
    rw [List.getD_eq_getElem?_getD, hv]
    exact Lib.Interval.mem_single v
  have hstays : Stays (step { w with sdl_arg_compiled := (parse p.length p).1.code 0 ++ [op_exit] })
      (SubscriptsIn { w with sdl_arg_compiled := (parse p.length p).1.code 0 ++ [op_exit] } info') n
      (entered vars argument) := by
    refine regular_stays ht (List.nil_subset _) hcomplete hbody hreports rfl hvars fun s' hnext _ _ => ?_
    rw [← hnext] at hop
    exact .of_error (subscriptsIn_of_ne hop (by decide)) (step_exit hop)
  exact hstays n le_rfl s hrun

end Description

/-- A loop of two rounds, with its variable for a subscript. -/
def counted : List UInt8 := [1, 35, 0, 9, 2, 36, 1, 8, 0, 1, 7, 0, 255]

def countedCode : List ℤ := [1, 2, 1, 1, 1, 1, 10, 7, 0, 19, 2, 0, 12, 0, 1, 9, 1, 8, 7, 11]

theorem counted_regular (vars : List ℤ) : RegularDescription counted vars := by
  intro p hp
  have hclauses : infoClauses counted.length counted.length (counted.drop 1) = .ok (counted.drop 1) := by
    decide +kernel
  rw [hclauses] at hp
  cases hp
  have hparse : parse (counted.drop 1).length (counted.drop 1) =
      (.loop 0 (.literal [1]) (.literal [2]) (.literal [1])
        (.element 1 (.saved (.scalar 0 1 (.saved (.var 0) .nothing)) .nothing)), [255]) := by
    decide +kernel
  rw [hparse]
  have hincrement : 0 ≤ SLONG (Sdl.literal [1]) := by decide
  have hlowest : -2 ^ 31 ≤ SLONG (Sdl.literal [1]) + SLONG (Sdl.literal [1]) := by decide
  have hgreatest : SLONG (Sdl.literal [2]) + SLONG (Sdl.literal [1]) < 2 ^ 31 := by decide
  refine ⟨trivial, trivial, trivial, ?_, ?_, ?_, List.not_mem_nil, ⟨⟨List.not_mem_nil, trivial⟩, rfl⟩, rfl⟩
  · simpa only [Tree.interval, Lib.Interval.single_lower] using hincrement
  · simpa only [Tree.interval, Lib.Interval.single_lower] using hlowest
  · simpa only [Tree.interval, Lib.Interval.single_upper] using hgreatest

/-- The subscript of the first round. -/
theorem counted_in_bounds :
    SubscriptsIn { pass with sdl_arg_compiled := countedCode } ⟨1, 1 :: List.replicate 15 0, 2 :: List.replicate 15 0⟩
      { entered [7] unstored with next := 12, stack := [1, 1, 2], sdl_arg_variables := [1] } := by
  have hinfo : SDL_info counted ⟨0, List.replicate 16 0, List.replicate 16 0⟩ (some [7]) =
      .ok ⟨1, 1 :: List.replicate 15 0, 2 :: List.replicate 15 0⟩ := by
    decide +kernel
  have hcode : ElementCode pass counted countedCode :=
    ⟨counted.drop 1, [255], by decide +kernel, by decide +kernel⟩
  have hrun : run (step { pass with sdl_arg_compiled := countedCode }) 5 (entered [7] unstored) =
      .ok { entered [7] unstored with next := 12, stack := [1, 1, 2], sdl_arg_variables := [1] } := by
    decide +kernel
  exact subscripts_in_reported_bounds hinfo (by decide) hcode (counted_regular [7]) 5 _ hrun

/-- An array of two elements, the subscripts of which are `-2` and `-1`. -/
def belowZero : Walk := ⟨⟨1, 4, [⟨⟨9, 0, 4, 0, 0, 0⟩, 1, -2, -1⟩]⟩, 1000, fun argument _ _ => some argument, []⟩

/-- A loop of two rounds, with the product of its variable and `-1` for a subscript. -/
def negated : List UInt8 := [1, 35, 0, 9, 2, 36, 1, 8, 0, 1, 15, 7, 0, 9, 255, 255]

def negatedCode : List ℤ := [1, 2, 1, 1, 1, 1, 10, 7, 0, 22, 2, 0, 1, -1, 5, 12, 0, 1, 9, 1, 8, 7, 11]

/-- The bounds that are reported are the wrong way round. The run does not fail, and its subscripts are not between
them. -/
theorem negated_out_of_bounds :
    ∃ info s, SDL_info negated ⟨0, List.replicate 16 0, List.replicate 16 0⟩ (some [7]) = .ok info ∧
      info.sdl_info_dimensions = 1 ∧ ElementCode belowZero negated negatedCode ∧
      (∃ vars argument, execute { belowZero with sdl_arg_compiled := negatedCode } 30 [7] unstored =
        some (.ok (vars, argument))) ∧
      run (step { belowZero with sdl_arg_compiled := negatedCode }) 7 (entered [7] unstored) = .ok s ∧
      ¬ SubscriptsIn { belowZero with sdl_arg_compiled := negatedCode } info s := by
  have hinfo : SDL_info negated ⟨0, List.replicate 16 0, List.replicate 16 0⟩ (some [7]) =
      .ok ⟨1, -1 :: List.replicate 15 0, -2 :: List.replicate 15 0⟩ := by
    decide +kernel
  have hcode : ElementCode belowZero negated negatedCode :=
    ⟨negated.drop 1, [255], by decide +kernel, by decide +kernel⟩
  have hexecute : execute { belowZero with sdl_arg_compiled := negatedCode } 30 [7] unstored =
      some (.ok ([3], { unstored with slice_desc := { unstored.slice_desc with dsc_address := 5008 } })) := by
    decide +kernel
  have hrun : run (step { belowZero with sdl_arg_compiled := negatedCode }) 7 (entered [7] unstored) =
      .ok { entered [7] unstored with next := 15, stack := [-1, 1, 2], sdl_arg_variables := [1] } := by
    decide +kernel
  refine ⟨_, _, hinfo, rfl, hcode, ⟨_, _, hexecute⟩, hrun, fun hin => ?_⟩
  obtain ⟨n, lower, upper, hn, -, hupper, -, hle⟩ := hin rfl 0 Nat.zero_lt_one
  cases hn
  cases hupper
  exact absurd hle (by decide)

end FirebirdCore.Sdl
