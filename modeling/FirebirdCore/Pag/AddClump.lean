import FirebirdCore.Pag.Clumps

/-!
# Chains of header pages

What `add_clump` makes of a chain of header pages, and when this is what it is for.
-/
namespace FirebirdCore.Pag

/-! ## Chains -/

/-- A header page with its clumps. -/
abbrev PageClumps := ℕ × List Clump

/-- The number of the first page, and 0 behind the last one. -/
def firstPage : List PageClumps → ℕ
  | [] => 0
  | (page, _) :: _ => page

/-- The pages hold the clumps and are linked in this order. -/
def Chain (dbb : Database) (pages : HeaderPages) : List PageClumps → Prop
  | [] => True
  | (page, clumps) :: rest =>
      (∃ header, pages page = some header ∧ header.Holds dbb clumps ∧
        header.hdr_next_page = firstPage rest) ∧
      (rest ≠ [] → firstPage rest ≠ 0) ∧ Chain dbb pages rest

variable {dbb : Database} {pages pages' : HeaderPages} {chain chain' front back back' : List PageClumps}

theorem Chain.congr (h : Chain dbb pages chain)
    (hsame : ∀ n ∈ chain.map Prod.fst, pages' n = pages n) : Chain dbb pages' chain := by
  induction chain with
  | nil => trivial
  | cons p chain ih =>
    obtain ⟨⟨header, hpage, hheader⟩, hnext, h⟩ := h
    rw [List.map_cons, List.forall_mem_cons] at hsame
    exact ⟨⟨header, hsame.1.trans hpage, hheader⟩, hnext, ih h hsame.2⟩

theorem firstPage_append (hfirst : firstPage back' = firstPage back) :
    firstPage (front ++ back') = firstPage (front ++ back) := by
  cases front with
  | nil => exact hfirst
  | cons p front => rfl

/-- The end of a chain changes. -/
theorem Chain.append (h : Chain dbb pages (front ++ back)) (h' : Chain dbb pages' back')
    (hsame : ∀ n ∈ front.map Prod.fst, pages' n = pages n) (hne : back ≠ [])
    (hfirst : firstPage back' = firstPage back) : Chain dbb pages' (front ++ back') := by
  induction front with
  | nil => exact h'
  | cons p front ih =>
    obtain ⟨⟨header, hpage, hholds, hlink⟩, hnext, h⟩ := h
    rw [List.map_cons, List.forall_mem_cons] at hsame
    have hsecond := @firstPage_append front _ _ hfirst
    refine ⟨⟨header, hsame.1.trans hpage, hholds, hlink.trans hsecond.symm⟩, fun _ => ?_, ih h hsame.2⟩
    change firstPage (front ++ back') ≠ 0
    rw [hsecond]
    exact hnext (by simp [hne])

theorem Chain.suffix (h : Chain dbb pages (front ++ back)) : Chain dbb pages back := by
  induction front with
  | nil => exact h
  | cons p front ih => exact ih h.2.2

/-- The pages of a chain follow from the first one. -/
theorem Chain.unique (h : Chain dbb pages chain) (h' : Chain dbb pages chain') (hne : chain ≠ [])
    (hne' : chain' ≠ []) (hfirst : firstPage chain = firstPage chain') : chain = chain' := by
  induction chain generalizing chain' with
  | nil => exact absurd rfl hne
  | cons p chain ih =>
    cases chain' with
    | nil => exact absurd rfl hne'
    | cons p' chain' =>
      obtain ⟨page, clumps⟩ := p
      obtain ⟨page', clumps'⟩ := p'
      obtain rfl : page = page' := hfirst
      obtain ⟨⟨header, hpage, hholds, hlink⟩, hnext, h⟩ := h
      obtain ⟨⟨header', hpage', hholds', hlink'⟩, hnext', h'⟩ := h'
      obtain rfl := Option.some.inj (hpage.symm.trans hpage')
      have hsecond := hlink.symm.trans hlink'
      rw [hholds.unique hholds']
      congr 1
      cases chain with
      | nil =>
        cases chain' with
        | nil => rfl
        | cons q chain' => exact absurd hsecond.symm (hnext' (by simp))
      | cons q chain =>
        cases chain' with
        | nil => exact absurd hsecond (hnext (by simp))
        | cons q' chain' => exact ih h h' (by simp) (by simp) hsecond

theorem Chain.nodup (h : Chain dbb pages chain) : (chain.map Prod.fst).Nodup := by
  induction chain with
  | nil => exact List.nodup_nil
  | cons p chain ih =>
    rw [List.map_cons, List.nodup_cons]
    refine ⟨fun hmem => ?_, ih h.2.2⟩
    obtain ⟨q, hq, hpq⟩ := List.mem_map.1 hmem
    obtain ⟨front, back, rfl⟩ := List.append_of_mem hq
    have hback : Chain dbb pages (q :: back) := Chain.suffix h.2.2
    have heq := Chain.unique h hback (by simp) (by simp) hpq.symm
    have hlength := congrArg List.length heq
    simp only [List.length_cons, List.length_append] at hlength
    omega

/-! ## Looking for a clump -/

def NoTypeOn (type : UInt8) (chain : List PageClumps) : Prop := ∀ p ∈ chain, NoType type p.2

theorem find_type_next {type : UInt8} {page : ℕ} {clumps : List Clump} {rest : List PageClumps}
    (h : Chain dbb pages ((page, clumps) :: rest)) (hno : NoType type clumps) (fuel : ℕ) :
    find_type pages type (fuel + 1) page =
      if rest ≠ [] then find_type pages type fuel (firstPage rest) else .ok (page, none) := by
  obtain ⟨⟨header, hpage, hholds, hlink⟩, hnext, -⟩ := h
  have hscan := hholds.scan type
  rw [lastPosition_of_noType hno] at hscan
  simp only [find_type, HeaderPages.fetch, hpage, hscan, hlink]
  cases rest with
  | nil => rfl
  | cons q rest => rw [if_pos (hnext (by simp)), if_pos (by simp)]

theorem find_type_absent {type : UInt8} {page : ℕ} {clumps : List Clump} {fuel : ℕ}
    (h : Chain dbb pages (front ++ [(page, clumps)])) (hno : NoTypeOn type (front ++ [(page, clumps)]))
    (hfuel : front.length < fuel) :
    find_type pages type fuel (firstPage (front ++ [(page, clumps)])) = .ok (page, none) := by
  induction front generalizing fuel with
  | nil =>
    obtain ⟨fuel, rfl⟩ := Nat.exists_eq_succ_of_ne_zero (by omega : fuel ≠ 0)
    exact find_type_next h (hno (page, clumps) (by simp)) fuel
  | cons p front ih =>
    obtain ⟨fuel, rfl⟩ := Nat.exists_eq_succ_of_ne_zero (by omega : fuel ≠ 0)
    rw [List.length_cons] at hfuel
    obtain ⟨hp, hno⟩ := List.forall_mem_cons.1 hno
    have hstep := find_type_next h hp fuel
    rw [if_pos (by simp)] at hstep
    exact hstep.trans (ih h.2.2 hno (by omega))

theorem find_type_found {type : UInt8} {page : ℕ} {clumps more : List Clump} {old : Clump} {fuel : ℕ}
    (h : Chain dbb pages (front ++ (page, clumps ++ old :: more) :: back)) (hno : NoTypeOn type front)
    (hold : old.type = type) (hmore : NoType type more) (hfuel : front.length < fuel) :
    find_type pages type fuel (firstPage (front ++ (page, clumps ++ old :: more) :: back)) =
      .ok (page, some ((clumpBytes clumps).length, (clumpBytes (clumps ++ old :: more)).length)) := by
  induction front generalizing fuel with
  | nil =>
    obtain ⟨fuel, rfl⟩ := Nat.exists_eq_succ_of_ne_zero (by omega : fuel ≠ 0)
    obtain ⟨⟨header, hpage, hholds, hlink⟩, -⟩ := h
    have hscan := hholds.scan type
    rw [lastPosition_last hold hmore, zero_add] at hscan
    simp [find_type, firstPage, HeaderPages.fetch, hpage, hscan]
  | cons p front ih =>
    obtain ⟨fuel, rfl⟩ := Nat.exists_eq_succ_of_ne_zero (by omega : fuel ≠ 0)
    rw [List.length_cons] at hfuel
    obtain ⟨hp, hno⟩ := List.forall_mem_cons.1 hno
    have hstep := find_type_next h hp fuel
    rw [if_pos (by simp)] at hstep
    exact hstep.trans (ih h.2.2 hno (by omega))

/-! ## Putting a clump -/

/-- The clump is put on the first page with room, or on a new one. -/
def appendFirst (dbb : Database) (newPage : ℕ) (c : Clump) : List PageClumps → List PageClumps
  | [] => [(newPage, [c])]
  | (page, clumps) :: rest =>
      if HasRoom dbb c clumps then (page, clumps ++ [c]) :: rest
      else (page, clumps) :: appendFirst dbb newPage c rest

theorem appendFirst_ne_nil (newPage : ℕ) (c : Clump) (chain : List PageClumps) :
    appendFirst dbb newPage c chain ≠ [] := by
  cases chain with
  | nil => exact List.cons_ne_nil _ _
  | cons p chain =>
    unfold appendFirst
    split_ifs <;> exact List.cons_ne_nil _ _

theorem firstPage_appendFirst (newPage : ℕ) (c : Clump) (hne : chain ≠ []) :
    firstPage (appendFirst dbb newPage c chain) = firstPage chain := by
  cases chain with
  | nil => exact absurd rfl hne
  | cons p chain =>
    unfold appendFirst
    split_ifs <;> rfl

/-- The page that `DPM_allocate` returns is none of the chain. -/
structure Fresh (newPage : ℕ) (chain : List PageClumps) : Prop where
  ne_zero : newPage ≠ 0
  notMem : newPage ∉ chain.map Prod.fst

theorem find_clump_space_spec {newPage fuel : ℕ} {c : Clump} (h : Chain dbb pages chain)
    (hne : chain ≠ []) (hfresh : Fresh newPage chain) (hroom : HasRoom dbb c [])
    (hfuel : chain.length ≤ fuel) :
    ∃ pages', find_clump_space dbb newPage c.type c.entry fuel pages (firstPage chain) = .ok pages' ∧
      Chain dbb pages' (appendFirst dbb newPage c chain) ∧
      ∀ n, n ∉ chain.map Prod.fst → n ≠ newPage → pages' n = pages n := by
  induction chain generalizing fuel with
  | nil => exact absurd rfl hne
  | cons p rest ih =>
    obtain ⟨page, clumps⟩ := p
    rw [List.length_cons] at hfuel
    obtain ⟨fuel, rfl⟩ := Nat.exists_eq_succ_of_ne_zero (by omega : fuel ≠ 0)
    have hnodup := h.nodup
    rw [List.map_cons, List.nodup_cons] at hnodup
    have hnew : newPage ≠ page ∧ newPage ∉ rest.map Prod.fst := by
      simpa [not_or] using hfresh.notMem
    obtain ⟨⟨header, hpage, hholds, hlink⟩, hnext, hrest⟩ := h
    have hfetch : pages.fetch page = .ok header := by simp [HeaderPages.fetch, hpage]
    have hend := hholds.hasRoom_iff c
    change ∃ pages', find_clump_space dbb newPage c.type c.entry (fuel + 1) pages page = _ ∧ _
    rw [appendFirst]
    by_cases hroom' : HasRoom dbb c clumps
    · rw [if_pos hroom']
      obtain ⟨header', hput, hholds', hlink'⟩ := hholds.put hroom'
      have hrun : find_clump_space dbb newPage c.type c.entry (fuel + 1) pages page =
          .ok (Function.update pages page (some header')) := by
        rw [find_clump_space]
        simp only [hfetch, hend, hroom', if_true, hput]
      refine ⟨_, hrun, ⟨⟨header', Function.update_self .., hholds', hlink'.trans hlink⟩, hnext,
        hrest.congr fun n hn => Function.update_of_ne ?_ ..⟩, fun n hn _ => Function.update_of_ne ?_ ..⟩
      · rintro rfl
        exact hnodup.1 hn
      · rintro rfl
        exact hn (by simp)
    rw [if_neg hroom']
    by_cases hlast : rest ≠ []
    · obtain ⟨pages', hrun, hchain, hframe⟩ := ih hrest hlast ⟨hfresh.ne_zero, hnew.2⟩
        (by omega : rest.length ≤ fuel)
      have hpass : find_clump_space dbb newPage c.type c.entry (fuel + 1) pages page =
          find_clump_space dbb newPage c.type c.entry fuel pages (firstPage rest) := by
        rw [find_clump_space]
        simp only [hfetch, hend, hroom', if_false, hlink, ne_eq, hnext hlast, not_false_eq_true,
          if_true]
      refine ⟨pages', hpass.trans hrun, ⟨⟨header, ?_, hholds, ?_⟩, fun _ => ?_, hchain⟩,
        fun n hn hn' => ?_⟩
      · rw [hframe page hnodup.1 hnew.1.symm, hpage]
      · rw [firstPage_appendFirst newPage c hlast, hlink]
      · rw [firstPage_appendFirst newPage c hlast]
        exact hnext hlast
      · exact hframe n (fun hmem => hn (by simp [hmem])) hn'
    · obtain rfl : rest = [] := not_not.1 hlast
      have hzero : header.hdr_next_page = 0 := hlink
      have hrun : find_clump_space dbb newPage c.type c.entry (fuel + 1) pages page =
          .ok (Function.update (Function.update pages newPage (some (newHeader dbb c.type c.entry)))
            page (some { header with hdr_next_page := newPage })) := by
        rw [find_clump_space]
        simp only [hfetch, hend, hroom', if_false, hzero, ne_eq, not_true_eq_false]
      refine ⟨_, hrun, ⟨⟨_, Function.update_self .., ⟨hholds.end_eq, hholds.data, hholds.size⟩, rfl⟩,
        fun _ => hfresh.ne_zero, ⟨_, ?_, newHeader_holds hroom, rfl⟩, by simp, trivial⟩,
        fun n hn hn' => ?_⟩
      · rw [Function.update_of_ne hnew.1, Function.update_self]
      · rw [Function.update_of_ne, Function.update_of_ne hn']
        rintro rfl
        exact hn (by simp)

theorem appendFirst_append (newPage : ℕ) {c : Clump} (hfull : ∀ p ∈ front, ¬ HasRoom dbb c p.2) :
    appendFirst dbb newPage c (front ++ back) = front ++ appendFirst dbb newPage c back := by
  induction front with
  | nil => rfl
  | cons p front ih =>
    obtain ⟨hp, hfull⟩ := List.forall_mem_cons.1 hfull
    rw [List.cons_append, appendFirst, if_neg hp, ih hfull, List.cons_append]

/-- With room in front, the clump is not put behind. -/
theorem appendFirst_append_ne (newPage : ℕ) {c : Clump} {p : PageClumps} (hp : p ∈ front)
    (hroom : HasRoom dbb c p.2) (back' : List PageClumps) :
    appendFirst dbb newPage c (front ++ back) ≠ front ++ back' := by
  induction front with
  | nil => simp at hp
  | cons q front ih =>
    obtain ⟨page, clumps⟩ := q
    rw [List.cons_append, List.cons_append, appendFirst]
    split_ifs with hfirst
    · intro heq
      have hclumps := congrArg Prod.snd (List.cons.inj heq).1
      simp at hclumps
    · intro heq
      rcases List.mem_cons.1 hp with rfl | hp
      · exact hfirst hroom
      · exact ih hp (List.cons.inj heq).2

/-- Pages keep their links, and what is torn stays so. -/
theorem find_clump_space_keeps {newPage fuel page : ℕ} {type : UInt8} {entry : List UInt8}
    (h : find_clump_space dbb newPage type entry fuel pages page = .ok pages') {n : ℕ}
    (hn : n ≠ newPage) {header : HeaderPage} (hheader : pages n = some header) :
    ∃ header', pages' n = some header' ∧
      (header.hdr_next_page ≠ 0 → header'.hdr_next_page = header.hdr_next_page) ∧
      (header.Torn → header'.Torn) := by
  induction fuel generalizing page with
  | zero => cases h
  | succ fuel ih =>
    unfold find_clump_space HeaderPages.fetch at h
    cases hpage : pages page with
    | none =>
      simp only [hpage] at h
      cases h
    | some current =>
      simp only [hpage] at h
      have hcurrent (heq : n = page) : header = current := by
        rw [← heq, hheader] at hpage
        exact Option.some.inj hpage
      split_ifs at h with hroom hnext
      · cases hput : current.put type entry with
        | error e =>
          rw [hput] at h
          cases h
        | ok written =>
          rw [hput] at h
          cases h
          by_cases heq : n = page
          · subst heq
            obtain rfl := hcurrent rfl
            refine ⟨written, Function.update_self .., fun _ => ?_, fun htorn => htorn.put hput⟩
            unfold HeaderPage.put at hput
            split_ifs at hput
            cases hput
            rfl
          · exact ⟨header, (Function.update_of_ne heq ..).trans hheader, fun _ => rfl, id⟩
      · exact ih h
      · cases h
        by_cases heq : n = page
        · subst heq
          obtain rfl := hcurrent rfl
          exact ⟨_, Function.update_self .., fun hne => absurd hne hnext, id⟩
        · refine ⟨header, ?_, fun _ => rfl, id⟩
          rw [Function.update_of_ne heq, Function.update_of_ne hn, hheader]

/-- With the same links, the pages of a chain are those of any other from the same first page. -/
theorem Chain.holds_of_links {page : ℕ} {clumps : List Clump}
    (h : Chain dbb pages (front ++ (page, clumps) :: back))
    (hlinks : ∀ n ∈ (front ++ (page, clumps) :: back).map Prod.fst, ∀ header, pages n = some header →
      ∃ header', pages' n = some header' ∧
        (header.hdr_next_page ≠ 0 → header'.hdr_next_page = header.hdr_next_page))
    (h' : Chain dbb pages' chain') (hne : chain' ≠ [])
    (hfirst : firstPage chain' = firstPage (front ++ (page, clumps) :: back)) :
    ∃ header' clumps', pages' page = some header' ∧ header'.Holds dbb clumps' := by
  induction front generalizing chain' with
  | nil =>
    cases chain' with
    | nil => exact absurd rfl hne
    | cons p' chain' =>
      obtain ⟨page', clumps'⟩ := p'
      obtain rfl : page' = page := hfirst
      obtain ⟨⟨header', hpage', hholds', -⟩, -⟩ := h'
      exact ⟨header', clumps', hpage', hholds'⟩
  | cons p front ih =>
    cases chain' with
    | nil => exact absurd rfl hne
    | cons p' chain' =>
      obtain ⟨n, clumps₀⟩ := p
      obtain ⟨page', clumps'⟩ := p'
      obtain rfl : page' = n := hfirst
      obtain ⟨⟨header, hpage, -, hlink⟩, hnext, h⟩ := h
      obtain ⟨⟨header', hpage', -, hlink'⟩, -, h'⟩ := h'
      have hne0 : firstPage (front ++ (page, clumps) :: back) ≠ 0 := hnext (by simp)
      obtain ⟨header'', hpage'', hsame⟩ := hlinks page' (by simp) header hpage
      obtain rfl := Option.some.inj (hpage'.symm.trans hpage'')
      have hsecond : firstPage chain' = firstPage (front ++ (page, clumps) :: back) := by
        rw [← hlink', hsame (hlink ▸ hne0)]
        exact hlink
      refine ih h (fun n hn => hlinks n (List.mem_cons_of_mem _ hn)) h' ?_ hsecond
      rintro rfl
      exact hne0 hsecond.symm

/-! ## Adding a clump -/

def MIN_PAGE_SIZE : ℕ := 4096

def MAX_PAGE_SIZE : ℕ := 16384

/-- What `add_clump` is for. The clump that is replaced is the last one of its type on the first page
with such a clump. -/
inductive Updated (dbb : Database) (newPage : ℕ) (c : Clump) (mode : ClumpOper)
    (chain : List PageClumps) : List PageClumps → Prop where
  | added (hmode : mode = .CLUMP_ADD) :
      Updated dbb newPage c mode chain (appendFirst dbb newPage c chain)
  | absent (hmode : mode = .CLUMP_REPLACE) (hno : NoTypeOn c.type chain) :
      Updated dbb newPage c mode chain (appendFirst dbb newPage c chain)
  | unchanged (hmode : mode = .CLUMP_REPLACE_ONLY) (hno : NoTypeOn c.type chain) :
      Updated dbb newPage c mode chain chain
  | overwritten {front back : List PageClumps} {page : ℕ} {clumps more : List Clump} {old : Clump}
      (hmode : mode ≠ .CLUMP_ADD) (hchain : chain = front ++ (page, clumps ++ old :: more) :: back)
      (hno : NoTypeOn c.type front) (hold : old.type = c.type) (hmore : NoType c.type more)
      (hlength : old.entry.length = c.entry.length) :
      Updated dbb newPage c mode chain (front ++ (page, clumps ++ c :: more) :: back)
  | removed {front back : List PageClumps} {page : ℕ} {clumps more : List Clump} {old : Clump}
      (hmode : mode ≠ .CLUMP_ADD) (hchain : chain = front ++ (page, clumps ++ old :: more) :: back)
      (hno : NoTypeOn c.type front) (hold : old.type = c.type) (hmore : NoType c.type more)
      (hlength : old.entry.length ≠ c.entry.length) :
      Updated dbb newPage c mode chain
        (appendFirst dbb newPage c (front ++ (page, clumps ++ more) :: back))

theorem Updated.firstPage {newPage : ℕ} {c : Clump} {mode : ClumpOper}
    (h : Updated dbb newPage c mode chain chain') (hne : chain ≠ []) :
    chain' ≠ [] ∧ Pag.firstPage chain' = Pag.firstPage chain := by
  cases h with
  | added => exact ⟨appendFirst_ne_nil _ _ _, firstPage_appendFirst _ _ hne⟩
  | absent => exact ⟨appendFirst_ne_nil _ _ _, firstPage_appendFirst _ _ hne⟩
  | unchanged => exact ⟨hne, rfl⟩
  | overwritten _ hchain =>
    subst hchain
    exact ⟨by simp, firstPage_append rfl⟩
  | removed _ hchain =>
    subst hchain
    exact ⟨appendFirst_ne_nil _ _ _, (firstPage_appendFirst _ _ (by simp)).trans (firstPage_append rfl)⟩

/-- A clump of another length is replaced only on the first page, and one that is missing is put only
where no page in front of the last one has room. -/
structure InFront (dbb : Database) (c : Clump) (mode : ClumpOper) (chain : List PageClumps) : Prop where
  found : mode ≠ .CLUMP_ADD → ∀ front page clumps old more back,
    chain = front ++ (page, clumps ++ old :: more) :: back → NoTypeOn c.type front →
      old.type = c.type → NoType c.type more → old.entry.length ≠ c.entry.length → front = []
  absent : mode = .CLUMP_REPLACE → NoTypeOn c.type chain → ∀ p ∈ chain.dropLast, ¬ HasRoom dbb c p.2

/-- There is a clump to replace, or none of the type. -/
theorem found_or_absent (type : UInt8) (chain : List PageClumps) :
    NoTypeOn type chain ∨ ∃ front page clumps old more back,
      chain = front ++ (page, clumps ++ old :: more) :: back ∧ NoTypeOn type front ∧
        old.type = type ∧ NoType type more := by
  induction chain with
  | nil => exact .inl (by simp [NoTypeOn])
  | cons p chain ih =>
    obtain ⟨page, all⟩ := p
    have hpage : NoType type all ∨ ∃ clumps old more, all = clumps ++ old :: more ∧ old.type = type ∧
        NoType type more := by
      induction all with
      | nil => exact .inl (by simp [NoType])
      | cons c all ih =>
        rcases ih with hno | ⟨clumps, old, more, rfl, hold, hmore⟩
        · by_cases hc : c.type = type
          · exact .inr ⟨[], c, all, rfl, hc, hno⟩
          · exact .inl (List.forall_mem_cons.2 ⟨hc, hno⟩)
        · exact .inr ⟨c :: clumps, old, more, rfl, hold, hmore⟩
    rcases hpage with hno | ⟨clumps, old, more, rfl, hold, hmore⟩
    · rcases ih with hrest | ⟨front, page', clumps, old, more, back, rfl, hfront, hold, hmore⟩
      · exact .inl (List.forall_mem_cons.2 ⟨hno, hrest⟩)
      · exact .inr ⟨(page, all) :: front, page', clumps, old, more, back, rfl,
          List.forall_mem_cons.2 ⟨hno, hfront⟩, hold, hmore⟩
    · exact .inr ⟨[], page, clumps, old, more, chain, rfl, by simp [NoTypeOn], hold, hmore⟩

section

variable {newPage fuel : ℕ} {c : Clump} {mode : ClumpOper}

theorem hasRoom_nil (hmin : MIN_PAGE_SIZE ≤ dbb.dbb_page_size) (c : Clump) : HasRoom dbb c [] := by
  have := c.length_lt
  unfold HasRoom HDR_SIZE
  unfold MIN_PAGE_SIZE at hmin
  rw [clumpBytes_nil, List.length_nil]
  omega

/-- A clump that is missing is put on the last page of the chain, where the search has ended. -/
theorem add_clump_absent {page : ℕ} {clumps : List Clump}
    (h : Chain dbb pages (front ++ [(page, clumps)]))
    (hfirst : firstPage (front ++ [(page, clumps)]) = HEADER_PAGE)
    (hfresh : Fresh newPage (front ++ [(page, clumps)])) (hwritable : dbb.readOnly = false)
    (hmin : MIN_PAGE_SIZE ≤ dbb.dbb_page_size) (hfuel : (front ++ [(page, clumps)]).length ≤ fuel)
    (hno : NoTypeOn c.type (front ++ [(page, clumps)])) (hmode : mode = .CLUMP_REPLACE) :
    ∃ pages', add_clump dbb newPage fuel pages c.type c.entry mode = .ok pages' ∧
      Chain dbb pages' (front ++ appendFirst dbb newPage c [(page, clumps)]) := by
  rw [List.length_append, List.length_singleton] at hfuel
  have hfind := find_type_absent h hno (by omega : front.length < fuel)
  rw [hfirst] at hfind
  have hnodup := h.nodup
  have hlast : Chain dbb pages [(page, clumps)] := h.suffix
  obtain ⟨pages', hrun, hchain, hframe⟩ := find_clump_space_spec hlast (by simp)
    ⟨hfresh.ne_zero, fun hmem => hfresh.notMem (by simp only [List.map_append, List.mem_append]; tauto)⟩
    (hasRoom_nil hmin c) (by rw [List.length_singleton]; omega : [(page, clumps)].length ≤ fuel)
  refine ⟨pages', ?_, h.append hchain (fun n hn => hframe n ?_ ?_) (by simp)
    (firstPage_appendFirst newPage c (by simp))⟩
  · unfold add_clump
    simp only [hwritable, hmode, hfind]
    exact hrun
  · rw [List.map_append, List.nodup_append] at hnodup
    exact fun hmem => hnodup.2.2 n hn n hmem rfl
  · rintro rfl
    exact hfresh.notMem (by simp only [List.map_append, List.mem_append]; tauto)

theorem add_clump_found {page : ℕ} {clumps more : List Clump} {old : Clump}
    (h : Chain dbb pages (front ++ (page, clumps ++ old :: more) :: back))
    (hfirst : firstPage (front ++ (page, clumps ++ old :: more) :: back) = HEADER_PAGE)
    (hwritable : dbb.readOnly = false)
    (hfuel : (front ++ (page, clumps ++ old :: more) :: back).length ≤ fuel)
    (hno : NoTypeOn c.type front) (hold : old.type = c.type) (hmore : NoType c.type more)
    (hmode : mode ≠ .CLUMP_ADD) :
    ∃ header, pages page = some header ∧ header.Holds dbb (clumps ++ old :: more) ∧
      add_clump dbb newPage fuel pages c.type c.entry mode =
        if old.entry.length = c.entry.length then
          .ok (Function.update pages page (some { header with
            hdr_data := Buffer.blit header.hdr_data ((clumpBytes clumps).length + 2) c.entry }))
        else
          let pages := Function.update pages HEADER_PAGE
            ((pages HEADER_PAGE).map fun header =>
              { header with hdr_end := (header.hdr_end + 65536 - (2 + old.entry.length)) % 65536 })
          let pages := Function.update pages page
            ((pages page).map fun header => header.remove (clumpBytes clumps).length
              (clumpBytes (clumps ++ old :: more)).length (2 + old.entry.length))
          find_clump_space dbb newPage c.type c.entry fuel pages HEADER_PAGE := by
  rw [List.length_append, List.length_cons] at hfuel
  have hfind := find_type_found h hno hold hmore (by omega : front.length < fuel)
  rw [hfirst] at hfind
  obtain ⟨⟨header, hpage, hholds, -⟩, -⟩ := h.suffix
  refine ⟨header, hpage, hholds, ?_⟩
  unfold add_clump
  simp only [hwritable, hmode, hfind, HeaderPages.fetch, hpage, hholds.oldLength]
  rw [Nat.add_sub_cancel, add_comm old.entry.length 2]
  rfl

/-- On the first page, the clump and the end offset change together. -/
theorem add_clump_first {page : ℕ} {clumps more : List Clump} {old : Clump}
    (h : Chain dbb pages ((page, clumps ++ old :: more) :: back))
    (hfirst : page = HEADER_PAGE) (hfresh : Fresh newPage ((page, clumps ++ old :: more) :: back))
    (hwritable : dbb.readOnly = false) (hmin : MIN_PAGE_SIZE ≤ dbb.dbb_page_size)
    (hmax : dbb.dbb_page_size ≤ MAX_PAGE_SIZE)
    (hfuel : ((page, clumps ++ old :: more) :: back).length ≤ fuel) (hold : old.type = c.type)
    (hmore : NoType c.type more) (hmode : mode ≠ .CLUMP_ADD)
    (hlength : old.entry.length ≠ c.entry.length) :
    ∃ pages', add_clump dbb newPage fuel pages c.type c.entry mode = .ok pages' ∧
      Chain dbb pages' (appendFirst dbb newPage c ((page, clumps ++ more) :: back)) := by
  subst hfirst
  obtain ⟨header, hpage, hholds, hrun⟩ := @add_clump_found dbb pages [] back newPage fuel c mode _ _ _ _ h
    rfl hwritable hfuel (by simp [NoTypeOn]) hold hmore hmode
  rw [hrun, if_neg hlength]
  obtain ⟨⟨rest, hdata⟩, hsize⟩ := hholds.remove
  have hend := hholds.end_eq
  have hle := hholds.size
  obtain ⟨rest', hdata'⟩ := hholds.data
  have hlengths := congrArg List.length hdata'
  unfold MAX_PAGE_SIZE at hmax
  simp only [clumpBytes_append, clumpBytes_cons, List.length_append, List.length_cons,
    Clump.length_bytes] at hend hlengths
  -- the header page after both steps
  have hheld : HeaderPage.Holds dbb (HeaderPage.remove
      { header with hdr_end := (header.hdr_end + 65536 - (2 + old.entry.length)) % 65536 }
      (clumpBytes clumps).length (clumpBytes (clumps ++ old :: more)).length
      (2 + old.entry.length)) (clumps ++ more) := by
    refine ⟨?_, ⟨rest, hdata⟩, by rw [← hle, ← hsize]; rfl⟩
    change (header.hdr_end + 65536 - (2 + old.entry.length)) % 65536 = _
    rw [clumpBytes_append, List.length_append]
    omega
  obtain ⟨⟨header₀, hpage₀, -, hlink⟩, hnext, hback⟩ := h
  obtain rfl := Option.some.inj (hpage.symm.trans hpage₀)
  have hnodup : HEADER_PAGE ∉ back.map Prod.fst := by
    have hchain : Chain dbb pages ((HEADER_PAGE, clumps ++ old :: more) :: back) :=
      ⟨⟨header, hpage, hholds, hlink⟩, hnext, hback⟩
    have := hchain.nodup
    rw [List.map_cons, List.nodup_cons] at this
    exact this.1
  simp only [hpage, Option.map_some, Function.update_self, Function.update_idem]
  have hchain : Chain dbb (Function.update pages HEADER_PAGE (some (HeaderPage.remove
      { header with hdr_end := (header.hdr_end + 65536 - (2 + old.entry.length)) % 65536 }
      (clumpBytes clumps).length (clumpBytes (clumps ++ old :: more)).length
      (2 + old.entry.length)))) ((HEADER_PAGE, clumps ++ more) :: back) := by
    refine ⟨⟨_, Function.update_self .., hheld, hlink⟩, hnext, hback.congr fun n hn => ?_⟩
    apply Function.update_of_ne
    rintro rfl
    exact hnodup hn
  obtain ⟨pages', hspace, hresult, -⟩ := find_clump_space_spec hchain (by simp)
    ⟨hfresh.ne_zero, hfresh.notMem⟩ (hasRoom_nil hmin c) hfuel
  exact ⟨pages', hspace, hresult⟩

/-- On a later page, the end offset of the first page changes instead. -/
theorem add_clump_later {page : ℕ} {clumps more : List Clump} {old : Clump}
    (h : Chain dbb pages (front ++ (page, clumps ++ old :: more) :: back)) (hne : front ≠ [])
    (hfirst : firstPage (front ++ (page, clumps ++ old :: more) :: back) = HEADER_PAGE)
    (hfresh : Fresh newPage (front ++ (page, clumps ++ old :: more) :: back))
    (hwritable : dbb.readOnly = false)
    (hfuel : (front ++ (page, clumps ++ old :: more) :: back).length ≤ fuel)
    (hno : NoTypeOn c.type front) (hold : old.type = c.type) (hmore : NoType c.type more)
    (hmode : mode ≠ .CLUMP_ADD) (hlength : old.entry.length ≠ c.entry.length)
    (hrun : add_clump dbb newPage fuel pages c.type c.entry mode = .ok pages') (hne' : chain' ≠ [])
    (hfirst' : firstPage chain' = HEADER_PAGE) : ¬ Chain dbb pages' chain' := by
  intro h'
  obtain ⟨header, hpage, hholds, heq⟩ := add_clump_found h hfirst hwritable hfuel hno hold hmore hmode
  rw [heq, if_neg hlength] at hrun
  -- the page of the clump is not the first one
  have hpage0 : page ≠ HEADER_PAGE := by
    rintro rfl
    have hnodup := h.nodup
    cases front with
    | nil => exact hne rfl
    | cons p front =>
      obtain ⟨first, clumps₀⟩ := p
      obtain rfl : first = HEADER_PAGE := hfirst
      simp at hnodup
  obtain ⟨⟨rest, hdata⟩, -⟩ := hholds.remove
  have htorn : (header.remove (clumpBytes clumps).length (clumpBytes (clumps ++ old :: more)).length
      (2 + old.entry.length)).Torn := by
    refine ⟨clumps ++ more, rest, hdata, ?_⟩
    change _ < header.hdr_end
    rw [hholds.end_eq]
    simp only [clumpBytes_append, clumpBytes_cons, List.length_append, Clump.length_bytes]
    omega
  simp only [Function.update_of_ne hpage0, hpage, Option.map_some] at hrun
  have hnew {n : ℕ} (hn : n ∈ (front ++ (page, clumps ++ old :: more) :: back).map Prod.fst) :
      n ≠ newPage := by
    rintro rfl
    exact hfresh.notMem hn
  have hkeeps := @find_clump_space_keeps _ _ _ _ _ _ _ _ hrun
  -- neither step changes a link
  have hlinks : ∀ n ∈ (front ++ (page, clumps ++ old :: more) :: back).map Prod.fst, ∀ header,
      pages n = some header → ∃ header', pages' n = some header' ∧
        (header.hdr_next_page ≠ 0 → header'.hdr_next_page = header.hdr_next_page) := by
    intro n hn header₁ hn₁
    have hlink : ∃ header₂, Function.update (Function.update pages HEADER_PAGE
        ((pages HEADER_PAGE).map fun header =>
          { header with hdr_end := (header.hdr_end + 65536 - (2 + old.entry.length)) % 65536 }))
        page (some (header.remove (clumpBytes clumps).length
          (clumpBytes (clumps ++ old :: more)).length (2 + old.entry.length))) n = some header₂ ∧
          header₂.hdr_next_page = header₁.hdr_next_page := by
      by_cases hpageEq : n = page
      · subst hpageEq
        obtain rfl := Option.some.inj (hpage.symm.trans hn₁)
        exact ⟨_, Function.update_self .., rfl⟩
      · rw [Function.update_of_ne hpageEq]
        by_cases hzero : n = HEADER_PAGE
        · subst hzero
          rw [Function.update_self, hn₁]
          exact ⟨_, rfl, rfl⟩
        · exact ⟨header₁, (Function.update_of_ne hzero ..).trans hn₁, rfl⟩
    obtain ⟨header₂, hpage₂, hsame⟩ := hlink
    obtain ⟨header'', hpage'', hsame', -⟩ := hkeeps (hnew hn) hpage₂
    exact ⟨header'', hpage'', fun h0 => (hsame' (hsame ▸ h0)).trans hsame⟩
  obtain ⟨header', clumps', hpage', hholds'⟩ := h.holds_of_links hlinks h' hne'
    (hfirst'.trans hfirst.symm)
  obtain ⟨header'', hpage'', -, htorn''⟩ := hkeeps (hnew (by simp)) (Function.update_self ..)
  obtain rfl := Option.some.inj (hpage'.symm.trans hpage'')
  exact (htorn'' htorn).not_holds hholds'

/-- `add_clump` updates the chain as it should if and only if the search for the clump ends on the
first page, or where it ends makes no difference. -/
theorem add_clump_updates_iff (h : Chain dbb pages chain) (hne : chain ≠ [])
    (hfirst : firstPage chain = HEADER_PAGE) (hfresh : Fresh newPage chain)
    (hwritable : dbb.readOnly = false) (hmin : MIN_PAGE_SIZE ≤ dbb.dbb_page_size)
    (hmax : dbb.dbb_page_size ≤ MAX_PAGE_SIZE) (hfuel : chain.length ≤ fuel) :
    (∃ chain' pages', Updated dbb newPage c mode chain chain' ∧
      add_clump dbb newPage fuel pages c.type c.entry mode = .ok pages' ∧ Chain dbb pages' chain') ↔
      InFront dbb c mode chain := by
  constructor
  · rintro ⟨chain', pages', hupdated, hrun, h'⟩
    obtain ⟨hne', hfirst'⟩ := hupdated.firstPage hne
    refine ⟨fun hmode front page clumps old more back hchain hno hold hmore hlength => ?_,
      fun hmode hno p hp hroom => ?_⟩
    · by_contra hfront
      subst hchain
      exact add_clump_later h hfront hfirst hfresh hwritable hfuel hno hold hmore hmode hlength hrun hne'
        (hfirst'.trans hfirst) h'
    · obtain ⟨front, ⟨page, clumps⟩, rfl⟩ : ∃ front last, chain = front ++ [last] :=
        ⟨_, _, (List.dropLast_append_getLast hne).symm⟩
      rw [List.dropLast_concat] at hp
      obtain ⟨pages'', hrun'', h''⟩ := add_clump_absent h hfirst hfresh hwritable hmin hfuel hno hmode
      rw [hrun] at hrun''
      cases hrun''
      have hchain' : chain' = appendFirst dbb newPage c (front ++ [(page, clumps)]) := by
        have hnot {front' back' page' clumps' old more} (hold : old.type = c.type)
            (hchain : front ++ [(page, clumps)] = front' ++ (page', clumps' ++ old :: more) :: back') :
            False :=
          hno (page', clumps' ++ old :: more) (by rw [hchain]; simp) old (by simp) hold
        cases hupdated with
        | added => rfl
        | absent => rfl
        | unchanged hmode' => rw [hmode] at hmode'; cases hmode'
        | overwritten _ hchain _ hold => exact (hnot hold hchain).elim
        | removed _ hchain _ hold => exact (hnot hold hchain).elim
      have heq := h'.unique h'' hne' (by simp [appendFirst_ne_nil]) (by
        rw [hfirst', firstPage_append (firstPage_appendFirst newPage c (by simp))])
      rw [hchain'] at heq
      exact appendFirst_append_ne newPage hp hroom _ heq
  · intro hfront
    by_cases hadd : mode = .CLUMP_ADD
    · obtain ⟨pages', hrun, hchain, -⟩ := find_clump_space_spec h hne hfresh (hasRoom_nil hmin c) hfuel
      refine ⟨_, pages', .added hadd, ?_, hchain⟩
      unfold add_clump
      simp only [hwritable, hadd]
      rw [hfirst] at hrun
      exact hrun
    · obtain hno | ⟨front, page, clumps, old, more, back, rfl, hno, hold, hmore⟩ :=
        found_or_absent c.type chain
      · obtain ⟨front, ⟨page, clumps⟩, rfl⟩ : ∃ front last, chain = front ++ [last] :=
          ⟨_, _, (List.dropLast_append_getLast hne).symm⟩
        by_cases honly : mode = .CLUMP_REPLACE_ONLY
        · refine ⟨_, pages, .unchanged honly hno, ?_, h⟩
          rw [List.length_append, List.length_singleton] at hfuel
          have hfind := find_type_absent h hno (by omega : front.length < fuel)
          rw [hfirst] at hfind
          unfold add_clump
          simp [hwritable, honly, hfind]
        · have hmode : mode = .CLUMP_REPLACE := by
            cases mode <;> simp at hadd honly ⊢
          obtain ⟨pages', hrun, hchain⟩ := add_clump_absent h hfirst hfresh hwritable hmin hfuel hno hmode
          refine ⟨_, pages', .absent hmode hno, hrun, ?_⟩
          have hfull := hfront.absent hmode hno
          rw [List.dropLast_concat] at hfull
          rw [appendFirst_append newPage hfull]
          exact hchain
      · by_cases hlength : old.entry.length = c.entry.length
        · obtain ⟨header, hpage, hholds, hrun⟩ := @add_clump_found dbb pages front back newPage fuel c
            mode _ _ _ _ h hfirst hwritable hfuel hno hold hmore hadd
          rw [if_pos hlength] at hrun
          refine ⟨_, _, .overwritten hadd rfl hno hold hmore hlength, hrun, ?_⟩
          have hnodup := h.nodup
          rw [List.map_append, List.nodup_append, List.map_cons, List.nodup_cons] at hnodup
          obtain ⟨⟨header₀, hpage₀, -, hlink⟩, hnext, hback⟩ := h.suffix
          obtain rfl := Option.some.inj (hpage.symm.trans hpage₀)
          refine h.append ⟨⟨_, Function.update_self .., hholds.overwrite hold hlength, hlink⟩, hnext,
            hback.congr fun n hn => Function.update_of_ne ?_ ..⟩ (fun n hn => Function.update_of_ne ?_ ..)
            (by simp) rfl
          · rintro rfl
            exact hnodup.2.1.1 hn
          · rintro rfl
            exact hnodup.2.2 n hn n (by simp) rfl
        · obtain rfl := hfront.found hadd _ _ _ _ _ _ rfl hno hold hmore hlength
          obtain ⟨pages', hrun, hchain⟩ := add_clump_first h hfirst hfresh hwritable hmin hmax hfuel hold
            hmore hadd hlength
          exact ⟨_, pages', .removed hadd rfl hno hold hmore hlength, hrun, hchain⟩

end

/-! ## A chain of two pages -/

/-- A page with nothing behind its clumps. -/
def headerPage (dbb : Database) (next : ℕ) (clumps : List Clump) : HeaderPage where
  hdr_next_page := next
  hdr_end := HDR_SIZE + (clumpBytes clumps).length
  hdr_data := clumpBytes clumps ++
    HDR_end :: List.replicate (dbb.dbb_page_size - HDR_SIZE - (clumpBytes clumps).length - 1) 0

theorem headerPage_holds {next : ℕ} {clumps : List Clump}
    (hfits : HDR_SIZE + (clumpBytes clumps).length < dbb.dbb_page_size) :
    (headerPage dbb next clumps).Holds dbb clumps where
  end_eq := rfl
  data := ⟨_, rfl⟩
  size := by
    simp only [headerPage, List.length_append, List.length_cons, List.length_replicate]
    omega

def smallDatabase : Database := ⟨4096, false⟩

def interval : Clump := ⟨6, [1, 0], by decide, by decide⟩

def guid : Clump := ⟨8, [1], by decide, by decide⟩

/-- The sweep interval is on the first page, and something else on the second one. -/
def twoPages : HeaderPages
  | 0 => some (headerPage smallDatabase 7 [interval])
  | 7 => some (headerPage smallDatabase 0 [guid])
  | _ => none

theorem twoPages_chain : Chain smallDatabase twoPages [(0, [interval]), (7, [guid])] :=
  ⟨⟨_, rfl, headerPage_holds (by decide), rfl⟩, by decide,
    ⟨_, rfl, headerPage_holds (by decide), rfl⟩, by decide, trivial⟩

/-- Another length for the clump on the second page. -/
def longerGuid : Clump := ⟨8, [1, 2], by decide, by decide⟩

theorem add_clump_updates_iff_twoPages :
    (∃ chain' pages', Updated smallDatabase 9 longerGuid .CLUMP_REPLACE
        [(0, [interval]), (7, [guid])] chain' ∧
      add_clump smallDatabase 9 2 twoPages 8 [1, 2] .CLUMP_REPLACE = .ok pages' ∧
      Chain smallDatabase pages' chain') ↔
      InFront smallDatabase longerGuid .CLUMP_REPLACE [(0, [interval]), (7, [guid])] :=
  add_clump_updates_iff (c := longerGuid) twoPages_chain (by simp) rfl ⟨by decide, by decide⟩ rfl
    (by decide) (by decide) (by decide)

/-- The clump on the second page is not replaced. -/
theorem laterPage_torn : ¬ ∃ chain' pages', Updated smallDatabase 9 longerGuid .CLUMP_REPLACE
      [(0, [interval]), (7, [guid])] chain' ∧
    add_clump smallDatabase 9 2 twoPages 8 [1, 2] .CLUMP_REPLACE = .ok pages' ∧
    Chain smallDatabase pages' chain' := by
  rintro ⟨chain', pages', hupdated, hrun, hchain⟩
  obtain ⟨hne, hfirst⟩ := hupdated.firstPage (by simp)
  refine @add_clump_later smallDatabase twoPages pages' chain' [(0, [interval])] [] 9 2 longerGuid
    .CLUMP_REPLACE 7 [] [] guid twoPages_chain (by simp) rfl ⟨by decide, by decide⟩ rfl (by decide) ?_ rfl
    ?_ (by simp) (by decide) hrun hne hfirst hchain
  · simp [NoTypeOn, NoType, interval, longerGuid]
  · simp [NoType]

end FirebirdCore.Pag
