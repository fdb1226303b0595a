import FirebirdCore.Similar.Match
import Mathlib.Computability.Language

/-!
# Programs for languages

A program of nodes implements a language if a scope that enters it leaves it behind each word of the
language, and returns to where it came from with the counters as they were. The programs that the
parser makes of smaller ones implement the languages they stand for.
-/
namespace FirebirdCore.Similar
open scoped Computability

variable {α γ : Type}

/-! ## Where a program stands -/

/-- The program stands at the position `i`. -/
def Placed (nodes : List (Node α γ)) (i : ℕ) (program : List (Node α γ)) : Prop :=
  program <+: nodes.drop i

theorem placed_nil (nodes : List (Node α γ)) (i : ℕ) : Placed nodes i [] := List.nil_prefix

theorem placed_append {nodes : List (Node α γ)} {i : ℕ} {f g : List (Node α γ)} :
    Placed nodes i (f ++ g) ↔ Placed nodes i f ∧ Placed nodes (i + f.length) g := by
  unfold Placed
  rw [← List.drop_drop]
  constructor
  · rintro ⟨t, ht⟩
    rw [← ht, List.append_assoc, List.drop_left]
    exact ⟨List.prefix_append _ _, List.prefix_append _ _⟩
  · rintro ⟨⟨t, ht⟩, hg⟩
    rw [← ht, List.drop_left] at hg
    obtain ⟨u, rfl⟩ := hg
    exact ⟨u, by rw [List.append_assoc, ht]⟩

theorem placed_cons {nodes : List (Node α γ)} {i : ℕ} {node : Node α γ} {f : List (Node α γ)} :
    Placed nodes i (node :: f) ↔ nodes[i]? = some node ∧ Placed nodes (i + 1) f := by
  rw [← List.singleton_append, placed_append]
  refine and_congr_left fun _ => ?_
  unfold Placed
  rw [← List.head?_drop]
  cases nodes.drop i with
  | nil => simp
  | cons x xs => simp [List.cons_prefix_cons, eq_comm]

@[simp] theorem jump_natCast (i n : ℕ) : jump i (n : ℤ) = i + n := by
  unfold jump
  omega

@[simp] theorem jump_neg (i n : ℕ) : jump (i + n) (-(n : ℤ)) = i := by
  unfold jump
  omega

/-! ## Scopes that return -/

section

variable [DecidableEq γ] {T : TextType α γ} {nodes : List (Node α γ)} {buffer : List α}

def StepsTo (T : TextType α γ) (nodes : List (Node α γ)) (buffer : List α) (c d : Config α) : Prop :=
  c.turn T nodes buffer = .next d

def Reaches (T : TextType α γ) (nodes : List (Node α γ)) (buffer : List α) :
    Config α → Config α → Prop :=
  Relation.ReflTransGen (StepsTo T nodes buffer)

def returning (matched : Bool) : MatchState :=
  if matched then .returningTrue else .returningFalse

/-- A scope that enters the node `i` returns, and returns true just if `P` holds. The counters are as
they were, but for their values after a match. -/
def Halts (T : TextType α γ) (nodes : List (Node α γ)) (buffer : List α) (i : ℕ) (x : List α)
    (rs : List ℤ) (rc : ℤ) (P : Prop) : Prop :=
  ∀ save below, ∃ matched x' rs' rc',
    Reaches T nodes buffer ⟨⟨.node i, save⟩ :: below, .iterating, x, rs, rc⟩
        ⟨below, returning matched, x', rs', rc'⟩ ∧
      (matched = true ↔ P) ∧ rs'.length = rs.length ∧ (matched = false → rs' = rs ∧ rc' = rc)

variable {i j : ℕ} {x y : List α} {rs : List ℤ} {rc : ℤ} {P Q : Prop}

theorem Halts.congr (h : Halts T nodes buffer i x rs rc P) (hPQ : P ↔ Q) :
    Halts T nodes buffer i x rs rc Q := by
  intro save below
  obtain ⟨matched, x', rs', rc', hreach, hmatched, hrest⟩ := h save below
  exact ⟨matched, x', rs', rc', hreach, hmatched.trans hPQ, hrest⟩

/-- A turn within the scope. -/
theorem Halts.of_step (h : Halts T nodes buffer j y rs rc P)
    (hstep : ∀ save below, ∃ save', StepsTo T nodes buffer
      ⟨⟨.node i, save⟩ :: below, .iterating, x, rs, rc⟩
      ⟨⟨.node j, save'⟩ :: below, .iterating, y, rs, rc⟩) : Halts T nodes buffer i x rs rc P := by
  intro save below
  obtain ⟨save', hstep⟩ := hstep save below
  obtain ⟨matched, x', rs', rc', hreach, hrest⟩ := h save' below
  exact ⟨matched, x', rs', rc', hreach.head hstep, hrest⟩

/-- A turn in which the node does not match. -/
theorem halts_false (hstep : ∀ save below, StepsTo T nodes buffer
      ⟨⟨.node i, save⟩ :: below, .iterating, x, rs, rc⟩ ⟨below, .returningFalse, x, rs, rc⟩) :
    Halts T nodes buffer i x rs rc False := fun save below =>
  ⟨false, x, rs, rc, Relation.ReflTransGen.single (hstep save below), by simp, rfl, fun _ => ⟨rfl, rfl⟩⟩

theorem reaches_of_step {c c' d : Config α} (hstep : StepsTo T nodes buffer c c')
    (h : Reaches T nodes buffer c d) (hne : c ≠ d) : Reaches T nodes buffer c' d := by
  obtain heq | ⟨e, he, hreach⟩ := h.cases_head
  · exact absurd heq hne
  · cases hstep.symm.trans he
    exact hreach

theorem halts_ref {r : ℤ} (hnode : nodes[i]? = some (.opRef r))
    (h : Halts T nodes buffer (jump i r) x rs rc P) : Halts T nodes buffer i x rs rc P :=
  h.of_step fun save below => ⟨none, by simp [StepsTo, Config.turn, hnode, Config.iterate]⟩

theorem halts_nothing (hnode : nodes[i]? = some .opNothing)
    (h : Halts T nodes buffer (i + 1) x rs rc P) : Halts T nodes buffer i x rs rc P :=
  h.of_step fun save below =>
    ⟨save, by simp [StepsTo, Config.turn, hnode, Config.iterate, Config.advance]⟩

/-- A branch pushes a scope for what follows it. It returns true if that does, and is left with the
saved position if not. -/
theorem branch_cases {r : ℤ} (hnode : nodes[i]? = some (.opBranch r))
    (h : Halts T nodes buffer (i + 1) x rs rc P) (save : Option (List α)) (below : List (Scope α)) :
    (P ∧ ∃ x' rs' rc', Reaches T nodes buffer ⟨⟨.node i, save⟩ :: below, .iterating, x, rs, rc⟩
      ⟨below, .returningTrue, x', rs', rc'⟩ ∧ rs'.length = rs.length) ∨
    (¬ P ∧ ∃ x', Reaches T nodes buffer ⟨⟨.node i, save⟩ :: below, .iterating, x, rs, rc⟩
      ⟨⟨.node i, some x⟩ :: below, .returningFalse, x', rs, rc⟩) := by
  obtain ⟨matched, x', rs', rc', hreach, hmatched, hlength, hfalse⟩ :=
    h none (⟨.node i, some x⟩ :: below)
  have henter : StepsTo T nodes buffer ⟨⟨.node i, save⟩ :: below, .iterating, x, rs, rc⟩
      ⟨⟨.node (i + 1), none⟩ :: ⟨.node i, some x⟩ :: below, .iterating, x, rs, rc⟩ := by
    simp [StepsTo, Config.turn, hnode, Config.iterate]
  cases matched with
  | true =>
    refine .inl ⟨hmatched.1 rfl, x', rs', rc', (hreach.head henter).tail ?_, hlength⟩
    simp [StepsTo, Config.turn, hnode, returning, Config.returnTrue, Config.pop]
  | false =>
    obtain ⟨rfl, rfl⟩ := hfalse rfl
    exact .inr ⟨fun hP => Bool.false_ne_true (hmatched.2 hP), x', hreach.head henter⟩

theorem halts_branch_zero (hnode : nodes[i]? = some (.opBranch 0))
    (h : Halts T nodes buffer (i + 1) x rs rc P) : Halts T nodes buffer i x rs rc P := by
  intro save below
  obtain ⟨hP, x', rs', rc', hreach, hlength⟩ | ⟨hP, x', hreach⟩ := branch_cases hnode h save below
  · exact ⟨true, x', rs', rc', hreach, by simp [hP], hlength, nofun⟩
  · refine ⟨false, x, rs, rc, hreach.tail ?_, by simp [hP], rfl, fun _ => ⟨rfl, rfl⟩⟩
    simp [StepsTo, Config.turn, hnode, returning, Config.returnFalse, Config.pop]

/-- What follows the branch is tried first, then what follows the branch that it refers to. -/
theorem halts_branch {r : ℤ} (hnode : nodes[i]? = some (.opBranch r)) (hr : r ≠ 0)
    (hlast : nodes[jump i r]? = some (.opBranch 0)) (hfirst : Halts T nodes buffer (i + 1) x rs rc P)
    (hsecond : Halts T nodes buffer (jump i r + 1) x rs rc Q) :
    Halts T nodes buffer i x rs rc (P ∨ Q) := by
  intro save below
  obtain ⟨hP, x', rs', rc', hreach, hlength⟩ | ⟨hP, x', hreach⟩ :=
    branch_cases hnode hfirst save below
  · exact ⟨true, x', rs', rc', hreach, by simp [hP], hlength, nofun⟩
  · obtain ⟨matched, x'', rs', rc', hreach', hmatched, hrest⟩ := hsecond (some x) below
    refine ⟨matched, x'', rs', rc', (hreach.tail ?_).trans hreach', ?_, hrest⟩
    · simp [StepsTo, Config.turn, hnode, Config.returnFalse, hr, hlast, Node.getRef, Config.advance]
    · rw [hmatched, or_iff_right hP]

/-- The branch refers to another one that has alternatives of its own. -/
theorem halts_branch_next {r r' : ℤ} (hnode : nodes[i]? = some (.opBranch r)) (hr : r ≠ 0)
    (hnext : nodes[jump i r]? = some (.opBranch r')) (hr' : r' ≠ 0)
    (hfirst : Halts T nodes buffer (i + 1) x rs rc P)
    (hsecond : Halts T nodes buffer (jump i r) x rs rc Q) :
    Halts T nodes buffer i x rs rc (P ∨ Q) := by
  intro save below
  obtain ⟨hP, x', rs', rc', hreach, hlength⟩ | ⟨hP, x', hreach⟩ :=
    branch_cases hnode hfirst save below
  · exact ⟨true, x', rs', rc', hreach, by simp [hP], hlength, nofun⟩
  · obtain ⟨matched, x'', rs', rc', hreach', hmatched, hrest⟩ := hsecond none below
    -- the turn that enters the second branch is already done
    have hturn : StepsTo T nodes buffer ⟨⟨.node (jump i r), none⟩ :: below, .iterating, x, rs, rc⟩
        ⟨⟨.node (jump i r + 1), none⟩ :: ⟨.node (jump i r), some x⟩ :: below, .iterating, x, rs,
          rc⟩ := by
      simp [StepsTo, Config.turn, hnext, Config.iterate]
    have hother := reaches_of_step hturn hreach' fun heq => by
      simpa using congrArg (fun c => c.scopeStack.length) heq
    refine ⟨matched, x'', rs', rc', (hreach.tail ?_).trans hother, ?_, hrest⟩
    · simp [StepsTo, Config.turn, hnode, Config.returnFalse, hr, hnext, Node.getRef, hr']
    · rw [hmatched, or_iff_right hP]

/-! ## Repetitions with a counter -/

/-- The end of a repetition: when the counter is 0, the enclosing counter is taken up again. -/
theorem halts_repeatingRefEnd_zero {r : ℤ} {count : ℤ}
    (hnode : nodes[i]? = some (.opRepeatingRefEnd r))
    (h : Halts T nodes buffer (i + 1) x rs count P) :
    Halts T nodes buffer i x (count :: rs) 0 P := by
  intro save below
  obtain ⟨matched, x', rs', rc', hreach, hmatched, hlength, hfalse⟩ :=
    h none (⟨.repeatingRestore, none⟩ :: ⟨.node i, save⟩ :: below)
  have henter : StepsTo T nodes buffer
      ⟨⟨.node i, save⟩ :: below, .iterating, x, count :: rs, 0⟩
      ⟨⟨.node (i + 1), none⟩ :: ⟨.repeatingRestore, none⟩ :: ⟨.node i, save⟩ :: below, .iterating, x,
        rs, count⟩ := by
    simp [StepsTo, Config.turn, hnode, Config.iterate]
  have hrestore : StepsTo T nodes buffer
      ⟨⟨.repeatingRestore, none⟩ :: ⟨.node i, save⟩ :: below, returning matched, x', rs', rc'⟩
      ⟨⟨.node i, save⟩ :: below, returning matched, x', rc' :: rs', -1⟩ := by
    cases matched <;> simp [StepsTo, Config.turn, returning, Config.pop]
  have hreach' := (hreach.head henter).tail hrestore
  cases matched with
  | true =>
    refine ⟨true, x', rc' :: rs', -1, hreach'.tail ?_, hmatched, by simp [hlength], nofun⟩
    simp [StepsTo, Config.turn, hnode, returning, Config.returnTrue, Config.pop]
  | false =>
    obtain ⟨rfl, rfl⟩ := hfalse rfl
    refine ⟨false, x', _, 0, hreach'.tail ?_, hmatched, rfl, fun _ => ⟨rfl, rfl⟩⟩
    simp [StepsTo, Config.turn, hnode, returning, Config.returnFalse, Config.pop]

/-- The end of a repetition: when the counter is positive, it goes back to the start. -/
theorem halts_repeatingRefEnd_succ {r : ℤ} {n : ℕ}
    (hnode : nodes[i]? = some (.opRepeatingRefEnd r))
    (h : Halts T nodes buffer (jump i r + 1) x rs n P) :
    Halts T nodes buffer i x rs (n + 1 : ℕ) P := by
  intro save below
  obtain ⟨matched, x', rs', rc', hreach, hmatched, hlength, hfalse⟩ :=
    h none (⟨.node i, save⟩ :: below)
  have henter : StepsTo T nodes buffer
      ⟨⟨.node i, save⟩ :: below, .iterating, x, rs, (n + 1 : ℕ)⟩
      ⟨⟨.node (jump i r + 1), none⟩ :: ⟨.node i, save⟩ :: below, .iterating, x, rs, n⟩ := by
    simp [StepsTo, Config.turn, hnode, Config.iterate]
  cases matched with
  | true =>
    refine ⟨true, x', rs', rc', (hreach.head henter).tail ?_, hmatched, hlength, nofun⟩
    simp [StepsTo, Config.turn, hnode, returning, Config.returnTrue, Config.pop]
  | false =>
    obtain ⟨rfl, rfl⟩ := hfalse rfl
    refine ⟨false, x', _, _, (hreach.head henter).tail ?_, hmatched, rfl, fun _ => ⟨rfl, rfl⟩⟩
    simp [StepsTo, Config.turn, hnode, returning, Config.returnFalse, Config.pop]

theorem halts_repeatingRefStart {r : ℤ} {n : ℕ}
    (hnode : nodes[i]? = some (.opRepeatingRefStart n r))
    (h : Halts T nodes buffer (jump i r) x (rc :: rs) n P) : Halts T nodes buffer i x rs rc P := by
  intro save below
  obtain ⟨matched, x', rs', rc', hreach, hmatched, hlength, hfalse⟩ :=
    h none (⟨.node i, save⟩ :: below)
  have henter : StepsTo T nodes buffer ⟨⟨.node i, save⟩ :: below, .iterating, x, rs, rc⟩
      ⟨⟨.node (jump i r), none⟩ :: ⟨.node i, save⟩ :: below, .iterating, x, rc :: rs, n⟩ := by
    simp [StepsTo, Config.turn, hnode, Config.iterate]
  obtain ⟨count, rs', rfl⟩ := List.exists_cons_of_length_pos (l := rs') (by simp [hlength])
  have hleave : StepsTo T nodes buffer
      ⟨⟨.node i, save⟩ :: below, returning matched, x', count :: rs', rc'⟩
      ⟨below, returning matched, x', rs', count⟩ := by
    cases matched <;> simp [StepsTo, Config.turn, hnode, returning, Config.returnTrue,
      Config.returnFalse, Config.restoreCount, Config.pop]
  refine ⟨matched, x', rs', count, (hreach.head henter).tail hleave, hmatched, ?_, fun hm => ?_⟩
  · simpa using hlength
  · obtain ⟨heq, -⟩ := hfalse hm
    cases heq
    exact ⟨rfl, rfl⟩

/-! ## Programs -/

/-- A scope that enters the program leaves it behind the words of the language, in whatever place it
stands. -/
def Implements (T : TextType α γ) (program : List (Node α γ)) (L : Language α) : Prop :=
  ∀ nodes buffer i, Placed nodes i program → ∀ x rs rc (K : List α → Prop),
    (∀ w ∈ L, ∀ y, x = w ++ y → Halts T nodes buffer (i + program.length) y rs rc (K y)) →
      Halts T nodes buffer i x rs rc (∃ w ∈ L, ∃ y, x = w ++ y ∧ K y)

variable {f g : List (Node α γ)} {L M : Language α}

/-- A node that matches the first character if it has a property. -/
theorem implements_char {node : Node α γ} {p : α → Prop} (hnil : ∀ nodes buffer i,
      nodes[i]? = some node → ∀ rs rc save below, StepsTo T nodes buffer
        ⟨⟨.node i, save⟩ :: below, .iterating, [], rs, rc⟩ ⟨below, .returningFalse, [], rs, rc⟩)
    (hmatch : ∀ nodes buffer i, nodes[i]? = some node → ∀ c x rs rc save below, p c →
      StepsTo T nodes buffer ⟨⟨.node i, save⟩ :: below, .iterating, c :: x, rs, rc⟩
        ⟨⟨.node (i + 1), save⟩ :: below, .iterating, x, rs, rc⟩)
    (hmiss : ∀ nodes buffer i, nodes[i]? = some node → ∀ c x rs rc save below, ¬ p c →
      StepsTo T nodes buffer ⟨⟨.node i, save⟩ :: below, .iterating, c :: x, rs, rc⟩
        ⟨below, .returningFalse, c :: x, rs, rc⟩) :
    Implements T [node] {w | ∃ c, p c ∧ w = [c]} := by
  intro nodes buffer i hplaced x rs rc K hK
  have hnode := (placed_cons.1 hplaced).1
  cases x with
  | nil =>
    refine (halts_false (hnil nodes buffer i hnode rs rc)).congr ⟨False.elim, ?_⟩
    rintro ⟨w, ⟨c, -, rfl⟩, y, heq, -⟩
    simp at heq
  | cons c x =>
    by_cases hp : p c
    · have hnext := hK [c] ⟨c, hp, rfl⟩ x rfl
      refine (hnext.of_step fun save below => ⟨save, hmatch nodes buffer i hnode _ _ _ _ _ _ hp⟩).congr
        ⟨fun h => ⟨[c], ⟨c, hp, rfl⟩, x, rfl, h⟩, ?_⟩
      rintro ⟨w, ⟨c', -, rfl⟩, y, heq, h⟩
      cases heq
      exact h
    · refine (halts_false fun save below => hmiss nodes buffer i hnode _ _ _ _ _ _ hp).congr
        ⟨False.elim, ?_⟩
      rintro ⟨w, ⟨c', hp', rfl⟩, y, heq, -⟩
      cases heq
      exact hp hp'

theorem implements_any : Implements T [.opAny] {w | ∃ c, True ∧ w = [c]} := by
  apply implements_char
  · intro nodes buffer i hnode rs rc save below
    simp [StepsTo, Config.turn, hnode, Config.iterate, Config.pop]
  · intro nodes buffer i hnode c x rs rc save below _
    simp [StepsTo, Config.turn, hnode, Config.iterate, Config.advance]
  · intro nodes buffer i hnode c x rs rc save below hfalse
    exact absurd trivial hfalse

theorem implements_anyOf (set : Enumeration α γ) :
    Implements T [.opAnyOf set] {w | ∃ c, T.anyOf set c = true ∧ w = [c]} := by
  apply implements_char
  · intro nodes buffer i hnode rs rc save below
    simp [StepsTo, Config.turn, hnode, Config.iterate, Config.pop]
  · intro nodes buffer i hnode c x rs rc save below hin
    simp [StepsTo, Config.turn, hnode, Config.iterate, Config.advance, hin]
  · intro nodes buffer i hnode c x rs rc save below hout
    simp [StepsTo, Config.turn, hnode, Config.iterate, Config.pop, hout]

theorem implements_exactlyOne (ch : γ) :
    Implements T [.opExactlyOne ch] {w | ∃ c, ch = T.canonical c ∧ w = [c]} := by
  apply implements_char
  · intro nodes buffer i hnode rs rc save below
    simp [StepsTo, Config.turn, hnode, Config.iterate, Config.pop]
  · intro nodes buffer i hnode c x rs rc save below hin
    simp [StepsTo, Config.turn, hnode, Config.iterate, Config.advance, hin]
  · intro nodes buffer i hnode c x rs rc save below hout
    simp [StepsTo, Config.turn, hnode, Config.iterate, Config.pop, hout]

/-- The words with a canonical form. -/
def exactWords (T : TextType α γ) (str : List γ) : Language α := {w | w.map T.canonical = str}

theorem implements_exactly (str : List γ) :
    Implements T [.opExactly str] (exactWords T str) := by
  intro nodes buffer i hplaced x rs rc K hK
  have hnode := (placed_cons.1 hplaced).1
  by_cases hstr : (x.take str.length).map T.canonical = str
  · have hnext := hK (x.take str.length) hstr (x.drop str.length) (List.take_append_drop _ _).symm
    refine (hnext.of_step fun save below => ⟨save, ?_⟩).congr
      ⟨fun h => ⟨_, hstr, _, (List.take_append_drop _ _).symm, h⟩, ?_⟩
    · simp only [StepsTo, Config.turn, hnode, Config.iterate, Config.advance, if_pos hstr,
        List.length_singleton]
    · rintro ⟨w, hw, y, rfl, h⟩
      have hlength : str.length = w.length := by
        rw [← hw, List.length_map]
      rwa [hlength, List.drop_left]
  · refine (halts_false fun save below => ?_).congr ⟨False.elim, ?_⟩
    · simp only [StepsTo, Config.turn, hnode, Config.iterate, Config.pop, if_neg hstr]
    · rintro ⟨w, hw, y, rfl, h⟩
      have hlength : str.length = w.length := by
        rw [← hw, List.length_map]
      exact hstr (by rw [hlength, List.take_left]; exact hw)

theorem implements_nothing : Implements T [.opNothing] 1 := by
  intro nodes buffer i hplaced x rs rc K hK
  have hnode := (placed_cons.1 hplaced).1
  refine (halts_nothing hnode (hK [] (Language.mem_one _ |>.2 rfl) x rfl)).congr
    ⟨fun h => ⟨[], (Language.mem_one _).2 rfl, x, rfl, h⟩, ?_⟩
  rintro ⟨w, hw, y, rfl, h⟩
  rw [Language.mem_one] at hw
  rwa [hw]

theorem implements_append (hf : Implements T f L) (hg : Implements T g M) :
    Implements T (f ++ g) (L * M) := by
  intro nodes buffer i hplaced x rs rc K hK
  obtain ⟨hpf, hpg⟩ := placed_append.1 hplaced
  refine (hf nodes buffer i hpf x rs rc (fun y => ∃ w ∈ M, ∃ z, y = w ++ z ∧ K z) ?_).congr ?_
  · rintro v hv y rfl
    refine hg nodes buffer _ hpg y rs rc K ?_
    rintro w hw z rfl
    have hend := hK (v ++ w) (Language.append_mem_mul hv hw) z (List.append_assoc ..).symm
    rwa [List.length_append, ← add_assoc] at hend
  · constructor
    · rintro ⟨v, hv, y, rfl, w, hw, z, rfl, h⟩
      exact ⟨v ++ w, Language.append_mem_mul hv hw, z, (List.append_assoc ..).symm, h⟩
    · rintro ⟨u, hu, z, rfl, h⟩
      obtain ⟨v, hv, w, hw, rfl⟩ := Language.mem_mul.1 hu
      exact ⟨v, hv, w ++ z, List.append_assoc .., w, hw, z, rfl, h⟩

/-! ## Programs that the parser makes of others -/

def starNodes (f : List (Node α γ)) : List (Node α γ) :=
  .opBranch (f.length + 2 : ℕ) :: f ++ [.opRef (-(f.length + 1 : ℕ)), .opBranch 0]

def plusNodes (f : List (Node α γ)) : List (Node α γ) :=
  f ++ [.opBranch (2 : ℕ), .opRef (-(f.length + 1 : ℕ)), .opBranch 0]

def optNodes (f : List (Node α γ)) : List (Node α γ) :=
  .opBranch (f.length + 1 : ℕ) :: f ++ [.opBranch 0]

def timesNodes (n : ℕ) (f : List (Node α γ)) : List (Node α γ) :=
  .opRepeatingRefStart n (f.length + 1 : ℕ) :: f ++ [.opRepeatingRefEnd (-(f.length + 1 : ℕ))]

/-- The alternatives, each of which goes to the end. -/
def altNodes : List (List (Node α γ)) → List (Node α γ)
  | [] => []
  | [f] => .opBranch 0 :: f ++ [.opRef (1 : ℕ)]
  | f :: fs =>
      .opBranch (f.length + 2 : ℕ) :: f ++ .opRef ((altNodes fs).length + 1 : ℕ) :: altNodes fs

theorem implements_opt (hf : Implements T f L) : Implements T (optNodes f) (1 + L) := by
  intro nodes buffer i hplaced x rs rc K hK
  obtain ⟨hbranch, hrest⟩ := placed_cons.1 hplaced
  obtain ⟨hbody, hrest⟩ := placed_append.1 hrest
  have hclose : nodes[jump i (f.length + 1 : ℕ)]? = some (.opBranch 0) := by
    rw [jump_natCast, add_comm f.length, ← add_assoc]
    exact (placed_cons.1 hrest).1
  have hend : i + (optNodes f).length = i + 1 + f.length + 1 := by
    simp [optNodes]
    omega
  rw [hend] at hK
  have hexit := hK [] (.inl ((Language.mem_one _).2 rfl)) x rfl
  have hfirst := hf nodes buffer _ hbody x rs rc K fun w hw y hx =>
    halts_branch_zero (placed_cons.1 hrest).1 (hK w (.inr hw) y hx)
  refine (halts_branch hbranch (by positivity) hclose hfirst (Q := K x) ?_).congr ?_
  · rw [jump_natCast]
    rwa [add_assoc i 1, add_comm 1] at hexit
  · constructor
    · rintro (⟨w, hw, y, hx, h⟩ | h)
      · exact ⟨w, .inr hw, y, hx, h⟩
      · exact ⟨[], .inl ((Language.mem_one _).2 rfl), x, rfl, h⟩
    · rintro ⟨w, hw | hw, y, hx, h⟩
      · rw [(Language.mem_one _).1 hw] at hx
        exact .inr (hx ▸ h)
      · exact .inl ⟨w, hw, y, hx, h⟩

/-- What is left of `x` behind a repetition. -/
theorem exists_kstar_iff (L : Language α) (x : List α) (K : List α → Prop) :
    (∃ w ∈ L∗, ∃ y, x = w ++ y ∧ K y) ↔
      (∃ v ∈ L, ∃ z, x = v ++ z ∧ ∃ w ∈ L∗, ∃ y, z = w ++ y ∧ K y) ∨ K x := by
  constructor
  · rintro ⟨w, hw, y, rfl, h⟩
    rw [← Language.one_add_self_mul_kstar_eq_kstar, Language.mem_add, Language.mem_one] at hw
    obtain rfl | hw := hw
    · exact .inr h
    · obtain ⟨v, hv, u, hu, rfl⟩ := Language.mem_mul.1 hw
      exact .inl ⟨v, hv, u ++ y, List.append_assoc .., u, hu, y, rfl, h⟩
  · rintro (⟨v, hv, z, rfl, w, hw, y, rfl, h⟩ | h)
    · refine ⟨v ++ w, ?_, y, (List.append_assoc ..).symm, h⟩
      rw [← Language.one_add_self_mul_kstar_eq_kstar]
      exact .inr (Language.append_mem_mul hv hw)
    · exact ⟨[], Language.nil_mem_kstar L, x, rfl, h⟩

/-- A loop whose body takes at least one character: `hround` is one round, which leads back to the
head or out of the loop. -/
theorem halts_loop {head exit : ℕ} (hempty : [] ∉ L) {K : List α → Prop}
    (hround : ∀ x, (∀ v ∈ L, ∀ z, x = v ++ z →
        Halts T nodes buffer head z rs rc (∃ w ∈ L∗, ∃ y, z = w ++ y ∧ K y)) →
      Halts T nodes buffer exit x rs rc (K x) → Halts T nodes buffer head x rs rc
        ((∃ v ∈ L, ∃ z, x = v ++ z ∧ ∃ w ∈ L∗, ∃ y, z = w ++ y ∧ K y) ∨ K x))
    (hexit : ∀ w ∈ L∗, ∀ y, x = w ++ y → Halts T nodes buffer exit y rs rc (K y)) :
    Halts T nodes buffer head x rs rc (∃ w ∈ L∗, ∃ y, x = w ++ y ∧ K y) := by
  induction hlength : x.length using Nat.strong_induction_on generalizing x with
  | _ n ih =>
    subst hlength
    refine (hround x ?_ (hexit [] (Language.nil_mem_kstar L) x rfl)).congr (exists_kstar_iff L x K).symm
    rintro v hv z rfl
    have hpos : 0 < v.length := List.length_pos_of_ne_nil fun hnil => hempty (hnil ▸ hv)
    refine ih z.length (by simp [hpos]) (fun w hw y hz => ?_) rfl
    refine hexit (v ++ w) ?_ y (by rw [hz, List.append_assoc])
    rw [← Language.one_add_self_mul_kstar_eq_kstar]
    exact .inr (Language.append_mem_mul hv hw)

theorem implements_star (hf : Implements T f L) (hempty : [] ∉ L) :
    Implements T (starNodes f) L∗ := by
  intro nodes buffer i hplaced x rs rc K hK
  obtain ⟨hbranch, hrest⟩ := placed_cons.1 hplaced
  obtain ⟨hbody, hrest⟩ := placed_append.1 hrest
  obtain ⟨hback, hrest⟩ := placed_cons.1 hrest
  have hlast : jump i (f.length + 2 : ℕ) = i + 1 + f.length + 1 := by
    rw [jump_natCast]
    omega
  have hclose : nodes[jump i (f.length + 2 : ℕ)]? = some (.opBranch 0) := by
    rw [hlast]
    exact (placed_cons.1 hrest).1
  have hend : i + (starNodes f).length = jump i (f.length + 2 : ℕ) + 1 := by
    rw [hlast]
    simp [starNodes]
    omega
  rw [hend] at hK
  refine halts_loop hempty (fun x hagain hexit => ?_) hK
  refine halts_branch hbranch (by positivity) hclose (hf nodes buffer _ hbody x rs rc _ ?_) hexit
  rintro v hv z hx
  refine halts_ref hback ?_
  have hjump : jump (i + 1 + f.length) (-(f.length + 1 : ℕ)) = i := by
    rw [add_assoc i, add_comm 1, jump_neg]
  rw [hjump]
  exact hagain v hv z hx

theorem implements_plus (hf : Implements T f L) (hempty : [] ∉ L) :
    Implements T (plusNodes f) (L * L∗) := by
  intro nodes buffer i hplaced x rs rc K hK
  obtain ⟨hbody, hrest⟩ := placed_append.1 hplaced
  obtain ⟨hbranch, hrest⟩ := placed_cons.1 hrest
  obtain ⟨hback, hrest⟩ := placed_cons.1 hrest
  have hlast : jump (i + f.length) (2 : ℕ) = i + f.length + 1 + 1 := by
    rw [jump_natCast]
  have hclose : nodes[jump (i + f.length) (2 : ℕ)]? = some (.opBranch 0) := by
    rw [hlast]
    exact (placed_cons.1 hrest).1
  have hend : i + (plusNodes f).length = jump (i + f.length) (2 : ℕ) + 1 := by
    rw [hlast]
    simp [plusNodes]
    omega
  have hjump : jump (i + f.length + 1) (-(f.length + 1 : ℕ)) = i := by
    rw [add_assoc, jump_neg]
  rw [hend] at hK
  have hhead : ∀ v ∈ L, ∀ z, x = v ++ z → Halts T nodes buffer (i + f.length) z rs rc
      (∃ w ∈ L∗, ∃ y, z = w ++ y ∧ K y) := by
    rintro v hv z rfl
    refine halts_loop hempty (fun x hagain hexit => ?_) fun w hw y hz =>
      hK (v ++ w) (Language.append_mem_mul hv hw) y (by rw [hz, List.append_assoc])
    refine halts_branch hbranch (by positivity) hclose (halts_ref hback ?_) hexit
    rw [hjump]
    exact hf nodes buffer i hbody x rs rc _ hagain
  refine (hf nodes buffer i hbody x rs rc _ hhead).congr ?_
  constructor
  · rintro ⟨v, hv, z, rfl, w, hw, y, rfl, h⟩
    exact ⟨v ++ w, Language.append_mem_mul hv hw, y, (List.append_assoc ..).symm, h⟩
  · rintro ⟨u, hu, y, rfl, h⟩
    obtain ⟨v, hv, w, hw, rfl⟩ := Language.mem_mul.1 hu
    exact ⟨v, hv, w ++ y, List.append_assoc .., w, hw, y, rfl, h⟩

theorem implements_times (hf : Implements T f L) (n : ℕ) :
    Implements T (timesNodes n f) (L ^ n) := by
  intro nodes buffer i hplaced x rs rc K hK
  obtain ⟨hstart, hrest⟩ := placed_cons.1 hplaced
  obtain ⟨hbody, hrest⟩ := placed_append.1 hrest
  have hlast := (placed_cons.1 hrest).1
  have hend : i + (timesNodes n f).length = i + 1 + f.length + 1 := by
    simp [timesNodes]
    omega
  have hjump : jump (i + 1 + f.length) (-(f.length + 1 : ℕ)) + 1 = i + 1 := by
    rw [add_assoc i, add_comm 1, jump_neg]
  rw [hend] at hK
  have hcount : ∀ (m : ℕ) x, (∀ w ∈ L ^ m, ∀ y, x = w ++ y →
        Halts T nodes buffer (i + 1 + f.length + 1) y rs rc (K y)) →
      Halts T nodes buffer (i + 1 + f.length) x (rc :: rs) m
        (∃ w ∈ L ^ m, ∃ y, x = w ++ y ∧ K y) := by
    intro m
    induction m with
    | zero =>
      intro x hx
      have hnil : ([] : List α) ∈ L ^ 0 := by
        rw [pow_zero]
        exact (Language.mem_one _).2 rfl
      refine (halts_repeatingRefEnd_zero hlast (hx [] hnil x rfl)).congr
        ⟨fun h => ⟨[], hnil, x, rfl, h⟩, ?_⟩
      rintro ⟨w, hw, y, rfl, h⟩
      rw [pow_zero, Language.mem_one] at hw
      rwa [hw]
    | succ m ih =>
      intro x hx
      refine halts_repeatingRefEnd_succ hlast ?_
      rw [hjump]
      refine (hf nodes buffer _ hbody x (rc :: rs) m
        (fun z => ∃ w ∈ L ^ m, ∃ y, z = w ++ y ∧ K y) ?_).congr ?_
      · rintro v hv z rfl
        refine ih z fun w hw y hz => hx (v ++ w) ?_ y (by rw [hz, List.append_assoc])
        rw [pow_succ']
        exact Language.append_mem_mul hv hw
      · rw [pow_succ']
        constructor
        · rintro ⟨v, hv, z, rfl, w, hw, y, rfl, h⟩
          exact ⟨v ++ w, Language.append_mem_mul hv hw, y, (List.append_assoc ..).symm, h⟩
        · rintro ⟨u, hu, y, rfl, h⟩
          obtain ⟨v, hv, w, hw, rfl⟩ := Language.mem_mul.1 hu
          exact ⟨v, hv, w ++ y, List.append_assoc .., w, hw, y, rfl, h⟩
  refine halts_repeatingRefStart hstart ?_
  have hgo : jump i (f.length + 1 : ℕ) = i + 1 + f.length := by
    rw [jump_natCast]
    omega
  rw [hgo]
  exact hcount n x hK

/-! ## Alternatives -/

theorem implements_ref_one : Implements T [.opRef (1 : ℕ)] 1 := by
  intro nodes buffer i hplaced x rs rc K hK
  have hnode := (placed_cons.1 hplaced).1
  have hnil : ([] : List α) ∈ (1 : Language α) := (Language.mem_one _).2 rfl
  have hnext := hK [] hnil x rfl
  refine (halts_ref hnode ?_).congr ⟨fun h => ⟨[], hnil, x, rfl, h⟩, ?_⟩
  · rw [jump_natCast]
    exact hnext
  · rintro ⟨w, hw, y, rfl, h⟩
    rw [Language.mem_one] at hw
    rwa [hw]

theorem implements_last (hf : Implements T f L) : Implements T (f ++ [.opRef (1 : ℕ)]) L := by
  have happend := implements_append hf implements_ref_one
  rwa [mul_one] at happend

omit [DecidableEq γ] in
theorem altNodes_cons_cons (f g : List (Node α γ)) (fs : List (List (Node α γ))) :
    altNodes (f :: g :: fs) = .opBranch (f.length + 2 : ℕ) :: f ++
      .opRef ((altNodes (g :: fs)).length + 1 : ℕ) :: altNodes (g :: fs) := rfl

/-- Some alternative matches. -/
theorem implements_alt {fs : List (List (Node α γ))} {Ls : List (Language α)}
    (h : List.Forall₂ (Implements T) fs Ls) (hne : fs ≠ []) : Implements T (altNodes fs) Ls.sum := by
  induction h with
  | nil => exact absurd rfl hne
  | @cons f L fs Ls hf hfs ih =>
    intro nodes buffer i hplaced x rs rc K hK
    cases hfs with
    | nil =>
      obtain ⟨hbranch, hrest⟩ := placed_cons.1 hplaced
      rw [List.sum_singleton] at hK ⊢
      refine halts_branch_zero hbranch (implements_last hf nodes buffer _ hrest x rs rc K ?_)
      intro w hw y hx
      have hend := hK w hw y hx
      have hlength : i + (altNodes [f]).length = i + 1 + (f ++ [Node.opRef (1 : ℕ)]).length := by
        simp [altNodes]
        omega
      rwa [hlength] at hend
    | @cons g M gs Ms hg hgs =>
      rw [altNodes_cons_cons] at hplaced
      obtain ⟨hbranch, hrest⟩ := placed_cons.1 hplaced
      obtain ⟨hbody, hrest⟩ := placed_append.1 hrest
      obtain ⟨hgo, hothers⟩ := placed_cons.1 hrest
      have hnext : jump i (f.length + 2 : ℕ) = i + 1 + f.length + 1 := by
        rw [jump_natCast]
        omega
      have hend : i + (altNodes (f :: g :: gs)).length =
          i + 1 + f.length + 1 + (altNodes (g :: gs)).length := by
        rw [altNodes_cons_cons]
        simp
        omega
      have hjump : jump (i + 1 + f.length) ((altNodes (g :: gs)).length + 1 : ℕ) =
          i + 1 + f.length + 1 + (altNodes (g :: gs)).length := by
        rw [jump_natCast]
        omega
      rw [hend, List.sum_cons] at hK
      have hfirst := hf nodes buffer _ hbody x rs rc K fun w hw y hx => by
        refine halts_ref hgo ?_
        rw [hjump]
        exact hK w (.inl hw) y hx
      have hsecond : Halts T nodes buffer i x rs rc ((∃ w ∈ L, ∃ y, x = w ++ y ∧ K y) ∨
          ∃ w ∈ (M :: Ms).sum, ∃ y, x = w ++ y ∧ K y) := by
        cases hgs with
        | nil =>
          obtain ⟨hlast, hrest⟩ := placed_cons.1 hothers
          rw [List.sum_singleton] at hK ⊢
          refine halts_branch hbranch (by positivity) (by rw [hnext]; exact hlast) hfirst ?_
          rw [hnext]
          refine implements_last hg nodes buffer _ hrest x rs rc K fun w hw y hx => ?_
          have hout := hK w (.inr hw) y hx
          have hlength : i + 1 + f.length + 1 + (altNodes [g]).length =
              i + 1 + f.length + 1 + 1 + (g ++ [Node.opRef (1 : ℕ)]).length := by
            simp [altNodes]
            omega
          rwa [hlength] at hout
        | @cons g' M' gs Ms hg' hgs =>
          have hother := (placed_cons.1 (altNodes_cons_cons g g' gs ▸ hothers)).1
          refine halts_branch_next hbranch (by positivity) (by rw [hnext]; exact hother)
            (by positivity) hfirst ?_
          rw [hnext]
          exact ih (by simp) nodes buffer _ hothers x rs rc K fun w hw y hx => hK w (.inr hw) y hx
      refine hsecond.congr ⟨?_, ?_⟩
      · rw [List.sum_cons]
        rintro (⟨w, hw, y, hx, h⟩ | ⟨w, hw, y, hx, h⟩)
        · exact ⟨w, .inl hw, y, hx, h⟩
        · exact ⟨w, .inr hw, y, hx, h⟩
      · rw [List.sum_cons]
        rintro ⟨w, hw | hw, y, hx, h⟩
        · exact .inl ⟨w, hw, y, hx, h⟩
        · exact .inr ⟨w, hw, y, hx, h⟩

/-! ## The whole match -/

theorem loop_succ {c d : Config α} (hstep : StepsTo T nodes buffer c d) (fuel : ℕ) :
    Config.loop T nodes buffer (fuel + 1) c = Config.loop T nodes buffer fuel d := by
  rw [Config.loop, hstep]

theorem loop_of_reaches {c d : Config α} (h : Reaches T nodes buffer c d) {fuel : ℕ}
    {matched : Bool} (hd : Config.loop T nodes buffer fuel d = some matched) :
    ∃ fuel, Config.loop T nodes buffer fuel c = some matched := by
  induction h using Relation.ReflTransGen.head_induction_on with
  | refl => exact ⟨fuel, hd⟩
  | head hstep _ ih =>
    obtain ⟨fuel', hfuel⟩ := ih
    exact ⟨fuel' + 1, (loop_succ hstep fuel').trans hfuel⟩

/-- More turns do not change the result. -/
theorem loop_mono {c : Config α} {fuel fuel' : ℕ} {matched : Bool}
    (h : Config.loop T nodes buffer fuel c = some matched) (hle : fuel ≤ fuel') :
    Config.loop T nodes buffer fuel' c = some matched := by
  induction fuel generalizing fuel' c with
  | zero => cases h
  | succ fuel ih =>
    obtain ⟨n, rfl⟩ := Nat.exists_eq_add_of_le hle
    rw [Nat.add_right_comm]
    unfold Config.loop at h ⊢
    cases hturn : c.turn T nodes buffer with
    | next d =>
      simp only [hturn] at h ⊢
      exact ih h (Nat.le_add_right ..)
    | result b =>
      simp only [hturn] at h ⊢
      exact h
    | undefined => simp [hturn] at h

/-- The string is matched just if it is in the language that the program between the first and the
last node implements. -/
theorem matchNodes_iff (hf : Implements T f L) (buffer : List α) :
    ∃ fuel matched, matchNodes T (.opStart :: f ++ [.opEnd]) buffer fuel = some matched ∧
      (matched = true ↔ buffer ∈ L) := by
  let nodes : List (Node α γ) := .opStart :: f ++ [.opEnd]
  have hplaced : Placed nodes 0 nodes := List.prefix_rfl
  obtain ⟨hstart, hrest⟩ := (placed_cons (f := f ++ [.opEnd])).1 hplaced
  obtain ⟨hbody, hlast⟩ := placed_append.1 hrest
  have hlast := (placed_cons.1 hlast).1
  have hbegin : StepsTo T nodes buffer (.initial buffer)
      ⟨[⟨.node 1, none⟩, ⟨.ret, none⟩], .iterating, buffer, [], 0⟩ := by
    simp only [StepsTo, Config.initial, Config.turn, hstart]
    simp [Config.iterate, Config.advance]
  have hend : ∀ w ∈ L, ∀ y, buffer = w ++ y →
      Halts T nodes buffer (0 + 1 + f.length) y [] 0 (y = []) := by
    intro w hw y hx save below
    refine ⟨decide (y = []), y, [], 0, Relation.ReflTransGen.single ?_, by simp, rfl,
      fun _ => ⟨rfl, rfl⟩⟩
    by_cases hy : y = [] <;>
      simp [StepsTo, Config.turn, hlast, Config.iterate, Config.pop, hy, returning]
  obtain ⟨matched, x', rs', rc', hreach, hmatched, -⟩ :=
    hf nodes buffer _ hbody buffer [] 0 (fun y => y = []) hend none [⟨.ret, none⟩]
  have hresult : Config.loop T nodes buffer 1 ⟨[⟨.ret, none⟩], returning matched, x', rs', rc'⟩ =
      some matched := by
    cases matched <;> simp [Config.loop, Config.turn, returning]
  obtain ⟨fuel, hfuel⟩ := loop_of_reaches (hreach.head hbegin) hresult
  refine ⟨fuel, matched, hfuel, hmatched.trans ⟨?_, fun h => ⟨buffer, h, [], by simp⟩⟩⟩
  rintro ⟨w, hw, y, hx, rfl⟩
  rw [List.append_nil] at hx
  exact hx ▸ hw

end

end FirebirdCore.Similar
