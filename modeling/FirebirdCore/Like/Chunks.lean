import FirebirdCore.Like.Branches

/-!
# Matching of LIKE patterns, chunk by chunk

What the branches stand for, with the candidate for a finish, is what the rest of the string has to be.
-/
namespace FirebirdCore.Like

variable {γ : Type}

/-! ## The branches that are alive -/

def BranchItem.Searches (b : BranchItem γ) : Prop :=
  b.pattern.head?.map PatternItem.type = some .piSearch

/-- A search with a `%` behind it. -/
def BranchItem.Waits (b : BranchItem γ) : Prop :=
  b.Searches ∧ b.pattern.head?.map PatternItem.matchAny = some true

variable [DecidableEq γ]

/-- The branches stand between two `%`, and `q` are the items behind the second one. -/
structure Shaped (branches : List (BranchItem γ)) (q : Option (List (PatternItem γ))) : Prop where
  ready : ∀ b ∈ branches, Ready b
  behind : ∀ b ∈ branches, behind b.pattern = q
  alone : ∀ b ∈ branches, b.Waits → branches.length ≤ 1
  searching : 1 < branches.length → ∃ b ∈ branches, b.Searches

variable {branches done todo : List (BranchItem γ)} {b : BranchItem γ}
  {q : Option (List (PatternItem γ))}

theorem Ready.shaped (h : Ready b) : Shaped [b] (Like.behind b.pattern) where
  ready := by simpa using h
  behind := by simp
  alone := by simp
  searching := by simp

/-- A branch moves on, and a search may leave another one behind. -/
theorem Shaped.replace (h : Shaped (done ++ b :: todo) q) (new : List (BranchItem γ))
    (hready : ∀ b' ∈ new, Ready b' ∧ Like.behind b'.pattern = Like.behind b.pattern)
    (hsearch : b.Searches → ∃ b' ∈ new, b'.Searches) (hlength : 1 < new.length → b.Searches)
    (hwaits : ∀ b' ∈ new, b'.Waits → b.Waits ∧ new.length ≤ 1) : Shaped (done ++ new ++ todo) q where
  ready := by
    intro x hx
    simp only [List.mem_append] at hx
    rcases hx with (hx | hx) | hx
    · exact h.ready x (by simp [hx])
    · exact (hready x hx).1
    · exact h.ready x (by simp [hx])
  behind := by
    intro x hx
    simp only [List.mem_append] at hx
    rcases hx with (hx | hx) | hx
    · exact h.behind x (by simp [hx])
    · rw [(hready x hx).2]
      exact h.behind b (by simp)
    · exact h.behind x (by simp [hx])
  alone := by
    intro x hx hx'
    have hother (hmem : x ∈ done ++ todo) : False := by
      have := h.alone x (by simp only [List.mem_append, List.mem_cons] at hmem ⊢; tauto) hx'
      have := List.length_pos_of_mem hmem
      simp only [List.length_append, List.length_cons] at *
      omega
    simp only [List.mem_append] at hx
    rcases hx with (hx | hx) | hx
    · exact (hother (by simp [hx])).elim
    · obtain ⟨hb, hone⟩ := hwaits x hx hx'
      have := h.alone b (by simp) hb
      simp only [List.length_append, List.length_cons] at *
      omega
    · exact (hother (by simp [hx])).elim
  searching := by
    intro hmany
    have hb (hb : b.Searches) : ∃ x ∈ done ++ new ++ todo, x.Searches := by
      obtain ⟨x, hx, hsearches⟩ := hsearch hb
      exact ⟨x, by simp [hx], hsearches⟩
    by_cases hold : 1 < (done ++ b :: todo).length
    · obtain ⟨x, hx, hsearches⟩ := h.searching hold
      simp only [List.mem_append, List.mem_cons] at hx
      rcases hx with hx | rfl | hx
      · exact ⟨x, by simp [hx], hsearches⟩
      · exact hb hsearches
      · exact ⟨x, by simp [hx], hsearches⟩
    · apply hb
      apply hlength
      simp only [List.length_append, List.length_cons] at *
      omega

/-- Inside the loop over the branches: a finish at this character leaves a search alive. -/
structure Passing (pos : ℤ) (done todo : List (BranchItem γ)) (finishCandidate : ℤ)
    (q : Option (List (PatternItem γ))) : Prop where
  ne : done ++ todo ≠ []
  shaped : Shaped (done ++ todo) q
  le : finishCandidate ≤ pos
  finish : finishCandidate = pos → q = none ∧ ∃ b ∈ done ++ todo, b.Searches

/-- The rest of the string, behind the character `c`, as the loop over the branches stands. -/
def Remains (c : γ) (pos : ℤ) (done todo : List (BranchItem γ)) (finishCandidate : ℤ) (w : List γ) :
    Prop :=
  (∃ b ∈ done, w ∈ b.language) ∨ (∃ b ∈ todo, c :: w ∈ b.language) ∨ (finishCandidate = pos ∧ w = [])

/-- What the loop leads to stands for the rests of the string. -/
def Pass.Agrees (pos len : ℤ) (rests : List γ → Prop) : Pass γ → Prop
  | .next branches finishCandidate =>
      branches ≠ [] ∧ finishCandidate ≤ pos ∧ (∃ q, Shaped branches q) ∧
        ∀ w, rests w ↔ (∃ b ∈ branches, w ∈ b.language) ∨ (finishCandidate = pos ∧ w = [])
  | .stop .MATCH_ANY more => more = false ∧ ∀ w, rests w
  | .stop .MATCH_FIXED more => more = true ∧ pos = len - 1 ∧ ∀ w, rests w ↔ w = []
  | .stop .MATCH_NONE more => more = false ∧ ∀ w, rests w → w = [] ∧ pos ≠ len - 1

variable {c : γ} {pos len finishCandidate : ℤ} {w : List γ}

omit [DecidableEq γ] in
theorem Remains.replace (new : List (BranchItem γ))
    (h : ∀ w, c :: w ∈ b.language ↔ ∃ b' ∈ new, w ∈ b'.language) :
    Remains c pos done (b :: todo) finishCandidate w ↔
      Remains c pos (done ++ new) todo finishCandidate w := by
  simp only [Remains, List.mem_append, List.mem_cons, or_and_right, exists_or, exists_eq_left, h,
    or_assoc]

omit [DecidableEq γ] in
theorem Remains.finish (new : List (BranchItem γ))
    (h : ∀ w, c :: w ∈ b.language ↔ w = [] ∨ ∃ b' ∈ new, w ∈ b'.language) :
    Remains c pos done (b :: todo) finishCandidate w ↔ Remains c pos (done ++ new) todo pos w := by
  simp only [Remains, List.mem_append, List.mem_cons, or_and_right, exists_or, exists_eq_left, h,
    true_and, or_assoc]
  constructor
  · rintro (h | h | h | h | ⟨-, h⟩) <;> simp [h]
  · rintro (h | h | h | h) <;> simp [h]

theorem Pass.Agrees.congr {L L' : List γ → Prop} {pass : Pass γ} (h : pass.Agrees pos len L)
    (hL : ∀ w, L' w ↔ L w) : pass.Agrees pos len L' := by
  obtain rfl : L' = L := funext fun w => propext (hL w)
  exact h

/-- The loop goes on with other branches in the place of one. -/
theorem Passing.replace {finishCandidate' : ℤ} (h : Passing pos done (b :: todo) finishCandidate q)
    (new : List (BranchItem γ))
    (hready : ∀ b' ∈ new, Ready b' ∧ Like.behind b'.pattern = Like.behind b.pattern)
    (hsearch : b.Searches → ∃ b' ∈ new, b'.Searches) (hlength : 1 < new.length → b.Searches)
    (hwaits : ∀ b' ∈ new, b'.Waits → b.Waits ∧ new.length ≤ 1) (hne : done ++ new ++ todo ≠ [])
    (hfinish : finishCandidate' = finishCandidate ∨ finishCandidate' = pos ∧ q = none ∧
      (b.Searches ∨ done ++ todo ≠ [])) :
    Passing pos (done ++ new) todo finishCandidate' q := by
  have hkeep (hs : ∃ b' ∈ done ++ b :: todo, b'.Searches) :
      ∃ b' ∈ done ++ new ++ todo, b'.Searches := by
    obtain ⟨x, hx, hsearches⟩ := hs
    simp only [List.mem_append, List.mem_cons] at hx
    rcases hx with hx | rfl | hx
    · exact ⟨x, by simp [hx], hsearches⟩
    · obtain ⟨y, hy, hsearches⟩ := hsearch hsearches
      exact ⟨y, by simp [hy], hsearches⟩
    · exact ⟨x, by simp [hx], hsearches⟩
  refine ⟨hne, h.shaped.replace new hready hsearch hlength hwaits, ?_, ?_⟩
  · rcases hfinish with rfl | ⟨rfl, -⟩
    · exact h.le
    · exact le_rfl
  · intro hpos
    rcases hfinish with rfl | ⟨-, hq, hother⟩
    · exact ⟨(h.finish hpos).1, hkeep (h.finish hpos).2⟩
    · refine ⟨hq, hkeep ?_⟩
      rcases hother with hb | hother
      · exact ⟨b, by simp, hb⟩
      · apply h.shaped.searching
        have := List.length_pos_of_ne_nil hother
        simp only [List.length_append, List.length_cons] at *
        omega

theorem Passing.remove {finishCandidate' : ℤ} (h : Passing pos done (b :: todo) finishCandidate q)
    (hb : ¬ b.Searches) (hne : done ++ todo ≠ [])
    (hfinish : finishCandidate' = finishCandidate ∨ finishCandidate' = pos ∧ q = none) :
    Passing pos done todo finishCandidate' q := by
  have hstep := h.replace [] (by simp)
    (fun hs => absurd hs hb) (by simp) (by simp) (by simpa using hne)
    (hfinish.imp_right fun h => ⟨h.1, h.2, .inr hne⟩)
  rwa [List.append_nil] at hstep

/-- One branch goes on alone. -/
theorem Ready.agrees {rests : List γ → Prop} (hb : Ready b) (hle : finishCandidate ≤ pos)
    (h : ∀ w, rests w ↔ w ∈ b.language ∨ (finishCandidate = pos ∧ w = [])) :
    (Pass.next [b] finishCandidate).Agrees pos len rests :=
  ⟨by simp, hle, ⟨_, hb.shaped⟩, fun w => by simpa using h w⟩

/-! ## The loop over the branches -/

section

variable {item : PatternItem γ} {rest : List (PatternItem γ)} {o : ℕ}

/-- A branch in a string or in a number of characters. -/
theorem passString_spec (hlinked : Linked (item :: rest)) (ho : o < item.length)
    (htype : item.type = .piDirectMatch ∨ item.type = .piSkipFixed)
    (h : Passing pos done (⟨item :: rest, o⟩ :: todo) finishCandidate q)
    (hloop : ∀ {done finishCandidate q}, Passing pos done todo finishCandidate q →
      (LikeEvaluator.passBranches c pos len done todo finishCandidate).Agrees pos len
        (Remains c pos done todo finishCandidate)) :
    (LikeEvaluator.passBranches c pos len done (⟨item :: rest, o⟩ :: todo) finishCandidate).Agrees
      pos len (Remains c pos done (⟨item :: rest, o⟩ :: todo) finishCandidate) := by
  have hnosearch : ¬ (⟨item :: rest, o⟩ : BranchItem γ).Searches := by
    rcases htype with htype | htype <;> simp [BranchItem.Searches, htype]
  have hq : Like.behind (item :: rest) = q := h.shaped.behind ⟨item :: rest, o⟩ (by simp)
  -- alone, the branch has no finish in front of it
  have halone (hothers : done ++ todo = []) : done = [] ∧ todo = [] ∧ finishCandidate ≠ pos := by
    obtain ⟨rfl, rfl⟩ := List.append_eq_nil_iff.1 hothers
    refine ⟨rfl, rfl, fun hpos => ?_⟩
    obtain ⟨-, b, hb, hsearches⟩ := h.finish hpos
    rw [List.nil_append, List.mem_singleton] at hb
    rw [hb] at hsearches
    exact hnosearch hsearches
  have hunfold : LikeEvaluator.passBranches c pos len done (⟨item :: rest, o⟩ :: todo)
      finishCandidate =
      if item.type = .piDirectMatch ∧ item.data[o]? ≠ some c then
        if done ++ todo = [] then .stop .MATCH_NONE false
        else LikeEvaluator.passBranches c pos len done todo finishCandidate
      else if (o : ℤ) + 1 ≥ item.length then
        if item.matchAny then
          if rest = [] then .stop .MATCH_ANY false else .next [⟨rest, 0⟩] finishCandidate
        else if rest = [] then
          if done ++ todo = [] then
            if pos = len - 1 then .stop .MATCH_FIXED true else .stop .MATCH_NONE false
          else LikeEvaluator.passBranches c pos len done todo pos
        else LikeEvaluator.passBranches c pos len (done ++ [⟨rest, 0⟩]) todo finishCandidate
      else LikeEvaluator.passBranches c pos len (done ++ [⟨item :: rest, o + 1⟩]) todo
        finishCandidate := by
    rw [LikeEvaluator.passBranches.eq_def]
    rcases htype with htype | htype <;> simp [htype]
  rw [hunfold]
  have hdead (hmiss : item.type = .piDirectMatch ∧ item.data[o]? ≠ some c) (w : List γ) :
      c :: w ∉ (⟨item :: rest, o⟩ : BranchItem γ).language := by
    intro hw
    rcases Nat.lt_or_ge (o + 1) item.length with hlt | hge
    · exact hmiss.2 (((language_inside hlinked hlt htype).1 hw).1 hmiss.1)
    · exact hmiss.2 (((language_last hlinked (by omega) htype).1 hw).1 hmiss.1)
  have hlast (hend : (o : ℤ) + 1 ≥ item.length) (w : List γ) :=
    language_last (c := c) (w := w) hlinked (o := o) (by omega) htype
  have hhit {P : Prop} (hmiss : ¬ (item.type = .piDirectMatch ∧ item.data[o]? ≠ some c)) :
      (item.type = .piDirectMatch → item.data[o]? = some c) ∧ P ↔ P :=
    and_iff_right (by simpa using hmiss)
  -- with nothing behind the item, the string ends here
  have hover (hmiss : ¬ (item.type = .piDirectMatch ∧ item.data[o]? ≠ some c))
      (hend : (o : ℤ) + 1 ≥ item.length) (hany : ¬ item.matchAny = true) (hrest : rest = [])
      (w : List γ) : c :: w ∈ (⟨item :: rest, o⟩ : BranchItem γ).language ↔ w = [] := by
    rw [hlast hend, hhit hmiss, hrest, afterLanguage_nil, PatternItem.tailLanguage, if_neg hany]
    exact Iff.rfl
  split_ifs with hmiss hothers hend hany hrest hrest hothers hpos
  · -- the branch dies alone
    obtain ⟨rfl, rfl, hne⟩ := halone hothers
    refine ⟨rfl, fun w hw => ?_⟩
    rcases hw with hw | ⟨b, hb, hw⟩ | hw
    · simp at hw
    · rw [List.mem_singleton.1 hb] at hw
      exact absurd hw (hdead hmiss w)
    · exact absurd hw.1 hne
  · exact (hloop (h.remove hnosearch hothers (.inl rfl))).congr fun w => by
      rw [Remains.replace [] (fun w => by simp [hdead hmiss w]), List.append_nil]
  · refine ⟨rfl, fun w => .inr (.inl ⟨_, List.mem_cons_self, ?_⟩)⟩
    rw [hlast hend, hhit hmiss, hrest, afterLanguage_nil, PatternItem.tailLanguage, if_pos hany]
    trivial
  · -- the other branches stand for ends of what follows the `%`
    have hq' : q = some rest := by
      rw [← hq, Like.behind, if_pos hany]
    have hne : finishCandidate ≠ pos := fun hpos => by
      have := (h.finish hpos).1
      rw [hq'] at this
      cases this
    have hlanguage : (⟨rest, 0⟩ : BranchItem γ).language = ⊤ * itemsLanguage rest := by
      rw [← afterLanguage_eq hlinked hrest, afterLanguage, PatternItem.tailLanguage, if_pos hany]
    refine (hlinked.tail.ready hrest).agrees h.le fun w => ⟨fun hw => ?_, fun hw => ?_⟩
    · left
      rw [hlanguage]
      rcases hw with ⟨b, hb, hw⟩ | ⟨b, hb, hw⟩ | hw
      · have hmem : b ∈ done ++ ⟨item :: rest, o⟩ :: todo := by simp [hb]
        obtain ⟨u, v, -, rfl, hv⟩ := (h.shaped.ready b hmem).mem_top_mul_behind
          ((h.shaped.behind b hmem).trans hq') hw
        exact mem_top_mul_of_append hv
      · have hmem : b ∈ done ++ ⟨item :: rest, o⟩ :: todo := List.mem_append_right _ hb
        obtain ⟨u, v, hu, heq, hv⟩ := (h.shaped.ready b hmem).mem_top_mul_behind
          ((h.shaped.behind b hmem).trans hq') hw
        cases u with
        | nil => exact absurd rfl hu
        | cons d u =>
          rw [(List.cons.inj heq).2]
          exact mem_top_mul_of_append hv
      · exact absurd hw.1 hne
    · rcases hw with hw | hw
      · refine .inr (.inl ⟨_, List.mem_cons_self, ?_⟩)
        rwa [hlast hend, hhit hmiss, afterLanguage_eq hlinked hrest]
      · exact absurd hw.1 hne
  · obtain ⟨rfl, rfl, hne⟩ := halone hothers
    refine ⟨rfl, hpos, fun w => ?_⟩
    simp [Remains, hover hmiss hend hany hrest, hne]
  · obtain ⟨rfl, rfl, hne⟩ := halone hothers
    refine ⟨rfl, fun w hw => ⟨?_, hpos⟩⟩
    simpa [Remains, hover hmiss hend hany hrest, hne] using hw
  · have hnone : q = none := by
      rw [← hq, behind_cons hany, hrest, Like.behind]
    refine (hloop (h.remove hnosearch hothers (.inr ⟨rfl, hnone⟩))).congr fun w => ?_
    rw [Remains.finish [] (fun w => by simp [hover hmiss hend hany hrest]), List.append_nil]
  · have hnext : ¬ (⟨rest, 0⟩ : BranchItem γ).Searches := by
      cases rest with
      | nil => simp [BranchItem.Searches]
      | cons next rest => simpa [BranchItem.Searches] using fun hs => hany (hlinked.chain.rel.2 hs)
    refine (hloop (h.replace [⟨rest, 0⟩] ?_ (fun hs => absurd hs hnosearch) (by simp) ?_
      (by simp) (.inl rfl))).congr fun w => ?_
    · simp only [List.mem_singleton, forall_eq]
      exact ⟨hlinked.tail.ready hrest, (behind_cons hany rest).symm⟩
    · simp only [List.mem_singleton, forall_eq]
      exact fun hw => absurd hw.1 hnext
    · refine Remains.replace _ fun w => ?_
      rw [hlast hend, hhit hmiss, afterLanguage_eq hlinked hrest]
      simp
  · refine (hloop (h.replace [⟨item :: rest, (o + 1 : ℕ)⟩] ?_
      (fun hs => absurd hs hnosearch) (by simp) ?_ (by simp) (.inl rfl))).congr fun w => ?_
    · simp only [List.mem_singleton, forall_eq, and_true]
      exact .mk hlinked (by omega)
    · simp only [List.mem_singleton, forall_eq]
      exact fun hw => absurd hw.1 hnosearch
    · refine Remains.replace _ fun w => ?_
      rw [language_inside hlinked (by omega) htype, hhit hmiss]
      simp

/-- A branch that searches. -/
theorem passSearch_spec (hlinked : Linked (item :: rest)) (ho : o < item.length)
    (htype : item.type = .piSearch)
    (h : Passing pos done (⟨item :: rest, o⟩ :: todo) finishCandidate q)
    (hloop : ∀ {done finishCandidate q}, Passing pos done todo finishCandidate q →
      (LikeEvaluator.passBranches c pos len done todo finishCandidate).Agrees pos len
        (Remains c pos done todo finishCandidate)) :
    (LikeEvaluator.passBranches c pos len done (⟨item :: rest, o⟩ :: todo) finishCandidate).Agrees
      pos len (Remains c pos done (⟨item :: rest, o⟩ :: todo) finishCandidate) := by
  have hq : Like.behind (item :: rest) = q := h.shaped.behind ⟨item :: rest, o⟩ (by simp)
  have hsearches (i : ℤ) : (⟨item :: rest, i⟩ : BranchItem γ).Searches := by
    simp [BranchItem.Searches, htype]
  have hwaits (i : ℤ) : (⟨item :: rest, i⟩ : BranchItem γ).Waits ↔ item.matchAny = true := by
    simp [BranchItem.Waits, hsearches]
  rw [LikeEvaluator.passBranches.eq_def]
  simp only [htype]
  obtain ⟨i, hi, hlt, hlanguage⟩ | ⟨border, hend, hlt, hborder, hlanguage⟩ :=
    language_search hlinked ho htype c rfl
  · rw [if_neg (by omega), hi]
    refine (hloop (h.replace [⟨item :: rest, i⟩] ?_ (fun _ => ⟨_, List.mem_cons_self, hsearches _⟩)
      (by simp) ?_ (by simp) (.inl rfl))).congr fun w => ?_
    · simp only [List.mem_singleton, forall_eq, and_true]
      exact .mk hlinked hlt
    · simp [hwaits]
    · exact Remains.replace _ fun w => by simp [hlanguage]
  · rw [if_pos hend.ge, hborder]
    cases rest with
    | nil =>
      simp only
      split_ifs with hany
      · refine ⟨rfl, fun w => .inr (.inl ⟨_, List.mem_cons_self, ?_⟩)⟩
        rw [hlanguage, afterLanguage_nil, PatternItem.tailLanguage, if_pos hany]
        exact .inl trivial
      · have hnone : q = none := by
          rw [← hq, behind_cons hany, Like.behind]
        refine (hloop (h.replace [⟨[item], border⟩] ?_
          (fun _ => ⟨_, List.mem_cons_self, hsearches _⟩) (by simp) ?_ (by simp)
          (.inr ⟨rfl, hnone, .inl (hsearches _)⟩))).congr fun w => ?_
        · simp only [List.mem_singleton, forall_eq, and_true]
          exact .mk hlinked hlt
        · simp [hwaits]
        · refine Remains.finish _ fun w => ?_
          rw [hlanguage, afterLanguage_nil, PatternItem.tailLanguage, if_neg hany]
          simp
    | cons following rest =>
      have hne : following :: rest ≠ [] := by simp
      have hready : Ready ⟨following :: rest, 0⟩ := hlinked.tail.ready hne
      have hchain : item.matchAny = true ↔ following.type = .piSearch := hlinked.chain.rel
      simp only
      split_ifs with hfollowing
      · -- the search is alone, and what follows the border follows the string
        have hany := hchain.2 hfollowing
        have hlength := h.shaped.alone ⟨item :: following :: rest, o⟩ (by simp) ((hwaits _).2 hany)
        obtain ⟨rfl, rfl⟩ : done = [] ∧ todo = [] := by
          simp only [List.length_append, List.length_cons] at hlength
          exact ⟨List.eq_nil_of_length_eq_zero (by omega), List.eq_nil_of_length_eq_zero (by omega)⟩
        have hafter (w : List γ) : c :: w ∈ (⟨item :: following :: rest, o⟩ : BranchItem γ).language ↔
            w ∈ (⟨following :: rest, 0⟩ : BranchItem γ).language := by
          rw [hlanguage, ← afterLanguage_eq hlinked hne]
          refine or_iff_left_of_imp fun hw => ?_
          obtain ⟨u, v, -, rfl, hv⟩ := Ready.split hlinked hlt hw
          rw [afterLanguage, PatternItem.tailLanguage, if_pos hany] at hv ⊢
          exact mem_top_mul_of_append hv
        refine hready.agrees h.le fun w => ?_
        simp [Remains, hafter]
      · have hany : ¬ item.matchAny = true := fun hany => hfollowing (hchain.1 hany)
        have hnext : ¬ (⟨following :: rest, 0⟩ : BranchItem γ).Searches := by
          simpa [BranchItem.Searches] using hfollowing
        refine (hloop (h.replace [⟨item :: following :: rest, border⟩, ⟨following :: rest, 0⟩] ?_
          (fun _ => ⟨_, List.mem_cons_self, hsearches _⟩) (fun _ => hsearches _) ?_ (by simp)
          (.inl rfl))).congr fun w => ?_
        · simp only [List.mem_cons, List.not_mem_nil, or_false, forall_eq_or_imp, forall_eq, and_true]
          refine ⟨.mk hlinked hlt, hready, ?_⟩
          exact (behind_cons hany _).symm
        · simp only [List.mem_cons, List.not_mem_nil, or_false, forall_eq_or_imp, forall_eq, hwaits]
          exact ⟨fun h => absurd h hany, fun h => absurd h.1 hnext⟩
        · refine Remains.replace _ fun w => ?_
          rw [hlanguage, afterLanguage_eq hlinked hne]
          simp [or_comm]

end

theorem passBranches_spec (h : Passing pos done todo finishCandidate q) :
    (LikeEvaluator.passBranches c pos len done todo finishCandidate).Agrees pos len
      (Remains c pos done todo finishCandidate) := by
  induction todo generalizing done finishCandidate q with
  | nil =>
    refine ⟨by simpa using h.ne, h.le, ⟨q, by simpa using h.shaped⟩, fun w => ?_⟩
    simp [Remains]
  | cons b todo ih =>
    have hb : Ready b := h.shaped.ready b (by simp)
    cases hb with
    | @mk item rest o hlinked ho =>
      by_cases htype : item.type = .piDirectMatch ∨ item.type = .piSkipFixed
      · exact passString_spec hlinked ho htype h ih
      · refine passSearch_spec hlinked ho ?_ h ih
        have hvalid := hlinked.valid item (by simp)
        unfold Valid at hvalid
        cases hitem : item.type <;> simp [hitem] at hvalid htype ⊢

/-! ## Chunks -/

namespace LikeEvaluator

/-- What the rest of the string has to be. -/
def language (E : LikeEvaluator γ) : Language γ :=
  {w | (∃ b ∈ E.branches, w ∈ b.language) ∨ E.matchType = .MATCH_FIXED ∧ w = [] ∨
    E.matchType = .MATCH_ANY}

omit [DecidableEq γ] in
@[simp] theorem mem_language {E : LikeEvaluator γ} : w ∈ E.language ↔
    (∃ b ∈ E.branches, w ∈ b.language) ∨ E.matchType = .MATCH_FIXED ∧ w = [] ∨
      E.matchType = .MATCH_ANY := Iff.rfl

/-- No branch is alive, or those that are stand between two `%`. -/
def Running (E : LikeEvaluator γ) : Prop :=
  E.branches = [] ∨ E.matchType ≠ .MATCH_ANY ∧ ∃ q, Shaped E.branches q

/-- With no rest of the string, the result is true if a finish has been reached. -/
theorem Running.nil_mem_iff {E : LikeEvaluator γ} (h : E.Running) :
    [] ∈ E.language ↔ E.getResult = true := by
  have hnone : ¬ ∃ b ∈ E.branches, [] ∈ b.language := by
    rintro ⟨b, hb, hw⟩
    rcases h with h | ⟨-, q, h⟩
    · simp [h] at hb
    · exact (h.ready b hb).nil_notMem hw
  rw [mem_language, or_iff_right hnone]
  unfold getResult
  cases E.matchType <;> simp

/-- The chunk has been processed from the evaluator `E`, for strings that match if `matching` holds of
what follows. -/
def Follows (matching : List γ → Prop) (result : LikeEvaluator γ × Bool) : Prop :=
  if result.2 then result.1.Running ∧ ∀ w, matching w ↔ w ∈ result.1.language
  else ∀ w, matching w ↔ result.1.getResult = true

theorem Follows.congr {matching matching' : List γ → Prop} {result : LikeEvaluator γ × Bool}
    (h : Follows matching result) (hiff : ∀ w, matching' w ↔ matching w) : Follows matching' result := by
  obtain rfl : matching' = matching := funext fun w => propext (hiff w)
  exact h

theorem processChars_spec {E : LikeEvaluator γ} {data : List γ} (hne : branches ≠ [])
    (hshaped : ∃ q, Shaped branches q) (htype : E.matchType = .MATCH_NONE)
    (hfinish : finishCandidate < pos) (hpos : pos + data.length = len) :
    Follows (fun w => (∃ b ∈ branches, data ++ w ∈ b.language) ∨
        data = [] ∧ finishCandidate = len - 1 ∧ w = [])
      (E.processChars len data pos branches finishCandidate) := by
  induction data generalizing pos branches finishCandidate with
  | nil =>
    obtain ⟨q, hshaped⟩ := hshaped
    unfold processChars Follows
    refine ⟨.inr ⟨?_, q, hshaped⟩, fun w => ?_⟩
    · simp only [htype]
      split_ifs <;> simp
    · simp only [mem_language, htype]
      by_cases hlast : finishCandidate = len - 1 <;> simp [hlast]
  | cons c data ih =>
    rw [List.length_cons] at hpos
    push_cast at hpos
    obtain ⟨q, hshaped⟩ := hshaped
    have hpass : Passing pos [] branches finishCandidate q :=
      ⟨hne, hshaped, hfinish.le, fun h => absurd h hfinish.ne⟩
    have hagrees : (passBranches c pos len [] branches finishCandidate).Agrees pos len
        (Remains c pos [] branches finishCandidate) := passBranches_spec hpass
    have hmatching (w : List γ) : ((∃ b ∈ branches, c :: data ++ w ∈ b.language) ∨
        c :: data = [] ∧ finishCandidate = len - 1 ∧ w = []) ↔
          Remains c pos [] branches finishCandidate (data ++ w) := by
      simp [Remains, hfinish.ne]
    have hend : data = [] ↔ pos = len - 1 := by
      rw [← List.length_eq_zero_iff]
      omega
    suffices h : Follows (fun w => Remains c pos [] branches finishCandidate (data ++ w))
        (E.processChars len (c :: data) pos branches finishCandidate) from h.congr hmatching
    unfold processChars
    cases hresult : LikeEvaluator.passBranches c pos len [] branches finishCandidate with
    | next branches' finishCandidate' =>
      rw [hresult] at hagrees
      obtain ⟨hne', hle, hshaped', hrests⟩ := hagrees
      have hchunk := @ih branches' (pos + 1) finishCandidate' hne' hshaped' (by omega) (by omega)
      refine hchunk.congr fun w => ?_
      rw [hrests, List.append_eq_nil_iff, hend]
      exact or_congr_right ⟨fun ⟨h, hdata, hw⟩ => ⟨hdata, h.trans hdata, hw⟩,
        fun ⟨hdata, h, hw⟩ => ⟨h.trans hdata.symm, hdata, hw⟩⟩
    | stop matchType more =>
      rw [hresult] at hagrees
      cases matchType with
      | MATCH_NONE =>
        obtain ⟨rfl, hrests⟩ := hagrees
        intro w
        refine iff_of_false (fun hw => ?_) (by simp [getResult])
        obtain ⟨hnil, hlast⟩ := hrests _ hw
        exact hlast (hend.1 (List.append_eq_nil_iff.1 hnil).1)
      | MATCH_FIXED =>
        obtain ⟨rfl, hlast, hrests⟩ := hagrees
        refine ⟨.inl rfl, fun w => ?_⟩
        simp [hrests, hend.2 hlast]
      | MATCH_ANY =>
        obtain ⟨rfl, hrests⟩ := hagrees
        intro w
        exact iff_of_true (hrests _) (by simp [getResult])

theorem processNextChunk_spec {E : LikeEvaluator γ} (h : E.Running) (data : List γ) :
    Follows (fun w => data ++ w ∈ E.language) (E.processNextChunk data) := by
  unfold processNextChunk
  by_cases hdata : data = []
  · rw [if_pos hdata, hdata]
    unfold Follows
    split_ifs with hmore
    · exact ⟨h, fun w => Iff.rfl⟩
    · obtain ⟨hbranches, hfixed⟩ : E.branches = [] ∧ E.matchType ≠ .MATCH_FIXED := by
        simpa using hmore
      intro w
      change w ∈ E.language ↔ E.getResult = true
      rw [mem_language, hbranches]
      unfold getResult
      cases htype : E.matchType <;> simp [htype] at hfixed ⊢
  · rw [if_neg hdata]
    -- a finish at the end of the last chunk no longer counts
    have hstart (w : List γ) : data ++ w ∈ E.language ↔
        (∃ b ∈ E.branches, data ++ w ∈ b.language) ∨ E.matchType = .MATCH_ANY := by
      simp [hdata]
    set E' := if E.matchType = .MATCH_FIXED then { E with matchType := .MATCH_NONE } else E with hE'
    have hbranches' : E'.branches = E.branches := by
      rw [hE']
      split_ifs <;> rfl
    have hany : E'.matchType = .MATCH_ANY ↔ E.matchType = .MATCH_ANY := by
      rw [hE']
      split_ifs with hfixed <;> simp [hfixed]
    have hnotFixed : E'.matchType ≠ .MATCH_FIXED := by
      rw [hE']
      split_ifs with hfixed
      · simp
      · exact hfixed
    by_cases hbranches : E'.branches = []
    · rw [if_pos hbranches]
      intro w
      change data ++ w ∈ E.language ↔ E'.getResult = true
      rw [hstart, ← hany, ← hbranches', hbranches]
      unfold getResult
      cases htype : E'.matchType <;> simp [htype] at hnotFixed ⊢
    · rw [if_neg hbranches]
      obtain ⟨hnotAny, hshaped⟩ := h.resolve_left (hbranches' ▸ hbranches)
      have hnone : E'.matchType = .MATCH_NONE := by
        cases htype : E'.matchType <;> simp_all
      refine (processChars_spec hbranches (hbranches' ▸ hshaped) hnone (by omega)
        (zero_add _)).congr fun w => ?_
      rw [hstart, hbranches', or_iff_left hnotAny]
      simp [hdata]

/-- Whatever the chunks are, the result is whether the string matches. -/
theorem processChunks_spec {E : LikeEvaluator γ} (h : E.Running) (chunks : List (List γ)) :
    (E.processChunks chunks).getResult = true ↔ chunks.flatten ∈ E.language := by
  induction chunks generalizing E with
  | nil => exact h.nil_mem_iff.symm
  | cons data chunks ih =>
    have hchunk := processNextChunk_spec h data
    rw [processChunks]
    cases hresult : E.processNextChunk data with
    | mk E' more =>
      rw [hresult] at hchunk
      cases more with
      | true => exact (ih hchunk.1).trans (hchunk.2 _).symm
      | false => exact (hchunk _).symm

theorem reset_spec {items : List (PatternItem γ)} (h : Compiled items) :
    (reset items).Running ∧ (reset items).language = itemsLanguage items := by
  cases h with
  | @empty item htype =>
    have hreset : reset [item] =
        ⟨[item], [], if item.matchAny then .MATCH_ANY else .MATCH_FIXED⟩ := if_pos htype
    rw [hreset]
    refine ⟨.inl rfl, ?_⟩
    have hbody : item.bodyLanguage = 1 := by
      unfold PatternItem.bodyLanguage
      rw [htype]
    rw [itemsLanguage_singleton, hbody, one_mul, PatternItem.tailLanguage]
    ext w
    split_ifs with hany
    · simp [mem_top]
    · simp
  | items hne hlinked =>
    cases items with
    | nil => exact absurd rfl hne
    | cons item rest =>
      have hvalid := hlinked.valid item (by simp)
      have htype : item.type ≠ .piNone := by
        intro htype
        simp [Valid, htype] at hvalid
      have hreset : reset (item :: rest) = ⟨item :: rest, [⟨item :: rest, 0⟩], .MATCH_NONE⟩ :=
        if_neg htype
      rw [hreset]
      refine ⟨.inr ⟨by simp, _, (hlinked.ready hne).shaped⟩, ?_⟩
      ext w
      rw [← language_start hlinked hne, mem_language]
      simp

/-- The evaluator after chunks for each of which true has been returned. -/
inductive Fed (items : List (PatternItem γ)) : List (List γ) → LikeEvaluator γ → Prop where
  | reset : Fed items [] (reset items)
  | chunk {chunks : List (List γ)} {E E' : LikeEvaluator γ} {data : List γ} (h : Fed items chunks E)
      (hmore : E.processNextChunk data = (E', true)) : Fed items (chunks ++ [data]) E'

theorem Fed.running {items : List (PatternItem γ)} {chunks : List (List γ)} {E : LikeEvaluator γ}
    (hitems : Compiled items) (h : Fed items chunks E) :
    E.Running ∧ ∀ w, chunks.flatten ++ w ∈ itemsLanguage items ↔ w ∈ E.language := by
  induction h with
  | reset =>
    obtain ⟨hrunning, hlanguage⟩ := reset_spec hitems
    exact ⟨hrunning, fun w => by rw [hlanguage, List.flatten_nil, List.nil_append]⟩
  | @chunk chunks E E' data h hmore ih =>
    have hchunk := processNextChunk_spec ih.1 data
    rw [hmore] at hchunk
    refine ⟨hchunk.1, fun w => ?_⟩
    rw [List.flatten_append, List.flatten_singleton, List.append_assoc, ih.2, ← hchunk.2]

end LikeEvaluator

section

variable [Zero γ]

/-- The string matches the pattern, however it is cut into chunks, and no continuation matters once
false is returned. -/
theorem getResult_iff_mem_language {P : LikePattern γ} {items : List (PatternItem γ)}
    (h : P.compile = .ok items) :
    ∃ ts, P.tokens P.patternStr = some ts ∧
      (∀ chunks, ((LikeEvaluator.reset items).processChunks chunks).getResult = true ↔
        chunks.flatten ∈ language ts) ∧
      ∀ chunks E data E', LikeEvaluator.Fed items chunks E →
        E.processNextChunk data = (E', false) →
          ∀ more, chunks.flatten ++ data ++ more ∈ language ts ↔ E'.getResult = true := by
  obtain ⟨ts, htokens, hitems, hlanguage⟩ := LikePattern.compile_spec h
  obtain ⟨hrunning, hreset⟩ := LikeEvaluator.reset_spec hitems
  refine ⟨ts, htokens, fun chunks => ?_, fun chunks E data E' hfed hstop more => ?_⟩
  · rw [LikeEvaluator.processChunks_spec hrunning, hreset, hlanguage]
  · obtain ⟨hrunning, hrest⟩ := hfed.running hitems
    have hchunk := LikeEvaluator.processNextChunk_spec hrunning data
    rw [hstop] at hchunk
    rw [← hlanguage, List.append_assoc, hrest]
    exact hchunk more

end

/-- The pattern `1%23_%`, where 9 is `%` and 8 is `_`. -/
def numbers : LikePattern ℕ where
  patternStr := [1, 9, 2, 3, 8, 9]
  escapeChar := 7
  useEscape := true
  sqlMatchAny := 9
  sqlMatchOne := 8

theorem getResult_iff_mem_language_numbers : ∃ items, numbers.compile = .ok items ∧
    ∃ ts, numbers.tokens numbers.patternStr = some ts ∧
      (∀ chunks, ((LikeEvaluator.reset items).processChunks chunks).getResult = true ↔
        chunks.flatten ∈ language ts) ∧
      ∀ chunks E data E', LikeEvaluator.Fed items chunks E →
        E.processNextChunk data = (E', false) →
          ∀ more, chunks.flatten ++ data ++ more ∈ language ts ↔ E'.getResult = true := by
  cases h : numbers.compile with
  | error e =>
    have hok : numbers.compile.toOption.isSome = true := by decide +kernel
    rw [h] at hok
    cases hok
  | ok items => exact ⟨items, rfl, getResult_iff_mem_language h⟩

end FirebirdCore.Like
