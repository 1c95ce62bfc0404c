import SistemasOperativos.Jos.TidyKernels

/-!
# The system calls that map pages

`env_page_alloc` and `env_page_map` keep a kernel tidy where the page that they map can be mapped
and counted. Neither of them looks: the first one loses its page where there is no page for a page
table, and the second one takes the address of a page out of the permission and lets the count wrap.
-/

namespace SistemasOperativos.Jos

open Library Library.Except Memory

variable {n : ℕ} {s : Scheduler} {c : Fin n} {inp : Input} {k k₁ k' : Kernel n}
  {e cur dst src : EnvPtr} {frugal : Prop} {m₀ memory : Memory} {managed free rest : List Ppn}
  {pd pdS pp page : Ppn} {va srcva dstva perm : Word} {r : ℤ}

namespace Kernel

/-- There is one free page, and the environment has no page table for `va`. -/
def Spent (k : Kernel n) (e : EnvPtr) (va : Word) : Prop :=
  (∃ p, k.memory.pageFreeList = some p ∧ (k.memory.pages p).ppLink = none) ∧
    ∀ pd, (k.envs e).envPgdir = some pd → k.memory.word pd (pdx va) = 0

/-- There is no free page, and the environment has no page table for `va`. -/
def Full (k : Kernel n) (e : EnvPtr) (va : Word) : Prop :=
  k.memory.pageFreeList = none ∧
    ∀ pd, (k.envs e).envPgdir = some pd → k.memory.word pd (pdx va) = 0

/-- The page can be counted once more when it is mapped at `va`. -/
def Countable (k : Kernel n) (e : EnvPtr) (va : Word) (page : Ppn) : Prop :=
  ∀ pd, (k.envs e).envPgdir = some pd → RoomFor k.memory pd va page

/-- What is mapped below `UTOP` was mapped there before, or it is a page that `P` gives to the
environment. -/
def Gains (k k' : Kernel n) (P : EnvPtr → Ppn → Prop) : Prop :=
  ∀ e pd, (k'.envs e).envPgdir = some pd → ∀ va, pdx va < pdx utop → k'.memory.mapping pd va ≠ 0 →
    (k.envs e).envPgdir = some pd ∧ k'.memory.mapping pd va = k.memory.mapping pd va ∨
      P e (pgnum (k'.memory.mapping pd va))

/-- The environment has the page mapped at `va`. -/
def Maps (k : Kernel n) (e : EnvPtr) (va : Word) (p : Ppn) : Prop :=
  ∃ pd, (k.envs e).envPgdir = some pd ∧ k.memory.mapping pd va ≠ 0 ∧
    p = pgnum (k.memory.mapping pd va)

/-- One call of `page_insert` has changed the memory: the entry `w` is the one for `va` now. -/
structure Inserts (frugal : Prop) (m₀ : Memory) (managed : List Ppn) (k k' : Kernel n) (e : EnvPtr)
    (va w : Word) : Prop where
  pgdir : ∃ pd ∈ k.roots, (k.envs e).envPgdir = some pd ∧ k.memory.Remaps k'.memory k.roots pd va w
  same : ∃ memory, k' = { k with memory }
  tidy : Tidy frugal m₀ managed k'

theorem Shrinks.gains {P : EnvPtr → Ppn → Prop} (h : Shrinks k k') : Gains k k' P :=
  fun e pd hpgdir va hva hne ↦ .inl (h e pd hpgdir (pd, pdx va, some (ptx va)) rfl hva hne)

theorem Gains.refl {P : EnvPtr → Ppn → Prop} (k : Kernel n) : Gains k k P :=
  fun _ _ hpgdir _ _ _ ↦ .inl ⟨hpgdir, rfl⟩

theorem Gains.trans {P Q : EnvPtr → Ppn → Prop} (h : Gains k k₁ P) (h' : Gains k₁ k' Q) :
    Gains k k' fun e p ↦ P e p ∨ Q e p := by
  intro e pd hpgdir va hva hne
  rcases h' e pd hpgdir va hva hne with ⟨hpgdir₁, hsame⟩ | hgain
  · rw [hsame] at hne ⊢
    exact (h e pd hpgdir₁ va hva hne).imp_right .inl
  · exact .inr (.inr hgain)

theorem Gains.mono {P Q : EnvPtr → Ppn → Prop} (h : Gains k k' P) (hPQ : ∀ e p, P e p → Q e p) :
    Gains k k' Q :=
  fun e pd hpgdir va hva hne ↦ (h e pd hpgdir va hva hne).imp_right (hPQ e _)

theorem Gains.shrinks {P : EnvPtr → Ppn → Prop} (h : Gains k k₁ P) (h' : Shrinks k₁ k') :
    Gains k k' P :=
  (h.trans (h'.gains (P := fun _ _ ↦ False))).mono fun _ _ hgain ↦ hgain.resolve_right id

theorem Shrinks.trans_gains {P : EnvPtr → Ppn → Prop} (h : Shrinks k k₁) (h' : Gains k₁ k' P) :
    Gains k k' P :=
  ((h.gains (P := fun _ _ ↦ False)).trans h').mono fun _ _ hgain ↦ hgain.resolve_left id

theorem Inserts.gains {w : Word} (h : Inserts frugal m₀ managed k k' e va w)
    (hk : Tidy frugal m₀ managed k) :
    Gains k k' fun e' p ↦ e' = e ∧ p = pgnum w := by
  obtain ⟨pd, -, hpgdir, hremaps⟩ := h.pgdir
  obtain ⟨memory, rfl⟩ := h.same
  intro e' pd' hpgdir' va' hva' _
  have hentry := hremaps.pages (pd', pdx va', some (ptx va')) (root_of_pgdir hpgdir') hva' (by simp)
  change memory.mapping pd' va' = _ at hentry
  split at hentry
  · rename_i hhere
    obtain ⟨rfl, -⟩ := Prod.mk.inj hhere
    exact .inr ⟨hk.apart e' e pd' hpgdir' hpgdir, congrArg pgnum hentry⟩
  · exact .inl ⟨hpgdir', hentry⟩

theorem pgnum_of_checkPerm (h : ¬ checkPerm perm none < 0) : pgnum perm = 0 :=
  pgnum_of_lt (toNat_of_checkPerm h)

/-- `env_page_alloc` maps a page from the free list, or it maps nothing; then a page may be lost. -/
theorem Tidy.envPageAlloc (h : Tidy frugal m₀ managed k) (hp : m₀.Prepared managed)
    (hva : va < utop) (hroom : frugal → ¬ checkPerm perm none < 0 → ¬ k.Spent e va)
    (hcall : k.envPageAlloc e va perm = .ok (r, k')) :
    r < 0 ∧ Tidy frugal m₀ managed k' ∧ Shrinks k k' ∨
    r = 0 ∧ pgnum perm = 0 ∧ ∃ pd pp rest memory, (k.envs e).envPgdir = some pd ∧
      Kept frugal m₀ k.memory managed k.roots (pp :: rest) none ∧ k' = { k with memory } ∧
      Placed frugal m₀ (k.memory.fresh pp) memory managed k.roots rest pd pp va
        (page2pa pp ||| perm ||| pteP) := by
  by_cases hperm : checkPerm perm none < 0
  · rw [envPageAlloc_of_bad_perm hperm] at hcall
    obtain ⟨rfl, rfl⟩ := Prod.mk.inj (Except.ok.inj hcall)
    exact .inl ⟨by decide, h, Shrinks.of_same rfl fun _ ↦ rfl⟩
  obtain ⟨free, hkept⟩ := h.kept
  cases free with
  | nil =>
    rw [envPageAlloc_of_empty hperm hkept.exact.chain] at hcall
    obtain ⟨rfl, rfl⟩ := Prod.mk.inj (Except.ok.inj hcall)
    exact .inl ⟨by decide, h, Shrinks.of_same rfl fun _ ↦ rfl⟩
  | cons pp rest =>
    have hhead := hkept.exact.pageFreeList_cons
    rw [envPageAlloc_of_free hperm hhead (hkept.exact.bound pp List.mem_cons_self)] at hcall
    obtain ⟨⟨r', m'⟩, hinsert, hcall⟩ := bind_ok.mp hcall
    obtain ⟨rfl, rfl⟩ := Prod.mk.inj (pure_ok.mp hcall)
    cases hpgdir : (k.envs e).envPgdir with
    | none =>
      rw [hpgdir] at hinsert
      cases hinsert
    | some pd =>
      rw [hpgdir] at hinsert
      have hpd := root_of_pgdir hpgdir
      have hfresh := hkept.fresh hp
      have hlow : RoomFor (k.memory.fresh pp) pd va pp := by
        refine .inl ?_
        rw [(hfresh.taken pp rfl).2.2]
        decide
      have hzero := pgnum_of_checkPerm hperm
      have hpage : pgnum perm ||| pp = pp := by
        rw [hzero]
        exact BitVec.zero_or
      rcases hfresh.pageInsert hp hpd (pdx_lt_utop hva) hfresh.mappable_hand hlow hpage
        (fun p hmem ↦ (Option.some.inj hmem).symm) hinsert with
        ⟨rfl, hplaced⟩ | ⟨rfl, rfl, hempty, rfl⟩
      · exact .inr ⟨rfl, hzero, pd, pp, rest, m', rfl, hkept, rfl, hplaced⟩
      · by_cases hfrugal : frugal
        · rw [fresh_word, if_neg ((hkept.forest hp).root_ne hpd)] at hempty
          refine absurd ⟨⟨pp, hhead, hkept.exact.chain.2⟩, fun pd' hpd' ↦ ?_⟩ (hroom hfrugal hperm)
          obtain rfl := Option.some.inj (hpgdir.symm.trans hpd')
          exact hempty
        · exact .inl ⟨(by decide : (-eNoMem : ℤ) < 0), h.of_memory ⟨[], hfresh.drop hfrugal⟩,
            Shrinks.of_entry fun r hr hlow _ ↦ entry_fresh hkept.exact (hkept.forest hp) hr hlow⟩

/-- A page that `page_insert` has placed. -/
theorem Tidy.inserts {w : Word} {m m' : Memory} (h : Tidy frugal m₀ managed k)
    (hpgdir : (k.envs e).envPgdir = some pd)
    (hsame : ∀ r : Ref, r.1 ∈ k.roots → r.2.1 < pdx utop → m.entry r = k.memory.entry r)
    (hplaced : Placed frugal m₀ m m' managed k.roots free pd pp va w) :
    Inserts frugal m₀ managed k { k with memory := m' } e va w where
  pgdir := by
    refine ⟨pd, root_of_pgdir hpgdir, hpgdir, fun r hr hlow hkind ↦ ?_, fun r hr hlow hne ↦ ?_⟩
    · rw [hplaced.remaps.pages r hr hlow hkind, hsame r hr hlow]
    · rw [hplaced.remaps.others r hr hlow hne, hsame r hr hlow]
  same := ⟨m', rfl⟩
  tidy := h.of_memory (hplaced.kept.imp fun _ ↦ And.left)

theorem Tidy.allocated (h : Tidy frugal m₀ managed k) (hp : m₀.Prepared managed)
    (hzero : pgnum perm = 0) (hpgdir : (k.envs e).envPgdir = some pd)
    (hkept : Kept frugal m₀ k.memory managed k.roots (pp :: rest) none)
    (hplaced : Placed frugal m₀ (k.memory.fresh pp) memory managed k.roots rest pd pp va
      (page2pa pp ||| perm ||| pteP)) :
    Inserts frugal m₀ managed k { k with memory } e va (page2pa pp ||| perm ||| pteP) ∧
      Gains k { k with memory } fun e' p ↦ e' = e ∧ k.memory.pageFreeList = some p := by
  have hinserts := h.inserts hpgdir
    (fun r hr hlow ↦ entry_fresh hkept.exact (hkept.forest hp) hr hlow) hplaced
  refine ⟨hinserts, (hinserts.gains h).mono fun e p hgain ↦ ⟨hgain.1, ?_⟩⟩
  rw [hgain.2, pgnum_entry (by rw [hzero]; exact BitVec.zero_or)]
  exact hkept.exact.pageFreeList_cons

/-- `env_page_map` does nothing, or it inserts the page of the source. -/
theorem Tidy.envPageMap_cases (h : Tidy frugal m₀ managed k) (hsrcva : srcva < utop)
    (hcall : k.envPageMap src srcva dst dstva perm = .ok (r, k')) :
    r < 0 ∧ k' = k ∨ ∃ pdS pd m', (k.envs src).envPgdir = some pdS ∧
      (k.envs dst).envPgdir = some pd ∧ k.memory.mapping pdS srcva ≠ 0 ∧
      perm &&& pteW &&& ~~~(pteW &&& k.memory.mapping pdS srcva) = 0 ∧
      k.memory.pageInsert (some pd) (pgnum (k.memory.mapping pdS srcva)) dstva perm = .ok (r, m') ∧
      k' = { k with memory := m' } := by
  obtain ⟨free, hkept⟩ := h.kept
  unfold Kernel.envPageMap at hcall
  obtain ⟨found, hlookup, hcall⟩ := bind_ok.mp hcall
  cases found with
  | none =>
    obtain ⟨rfl, rfl⟩ := Prod.mk.inj (pure_ok.mp hcall)
    exact .inl ⟨by decide, rfl⟩
  | some found =>
    obtain ⟨page, pte⟩ := found
    simp only at hcall
    split at hcall
    · obtain ⟨rfl, rfl⟩ := Prod.mk.inj (pure_ok.mp hcall)
      exact .inl ⟨by decide, rfl⟩
    rename_i hwrite
    rw [not_not] at hwrite
    obtain ⟨⟨r', m'⟩, hinsert, hcall⟩ := bind_ok.mp hcall
    obtain ⟨rfl, rfl⟩ := Prod.mk.inj (pure_ok.mp hcall)
    cases hsource : (k.envs src).envPgdir with
    | none =>
      rw [hsource] at hlookup
      cases hlookup
    | some pdS =>
    cases hpgdir : (k.envs dst).envPgdir with
    | none =>
      rw [hpgdir] at hinsert
      cases hinsert
    | some pd =>
    have hpdS := root_of_pgdir hsource
    rw [hsource] at hlookup
    have hmapped : k.memory.mapping pdS srcva ≠ 0 := by
      intro hzero
      rw [pageLookup_eq_none hkept.exact hpdS (pdx_lt_utop hsrcva) hzero] at hlookup
      cases hlookup
    rw [pageLookup_eq hkept.exact hpdS (pdx_lt_utop hsrcva) hmapped] at hlookup
    obtain ⟨rfl, rfl⟩ := Prod.mk.inj (Option.some.inj (Except.ok.inj hlookup))
    rw [readPte_tableOf hmapped] at hwrite
    rw [hpgdir] at hinsert
    exact .inr ⟨pdS, pd, m', rfl, rfl, hmapped, hwrite, hinsert, rfl⟩

/-- `env_page_map` does nothing, or it maps the page of the source, which is writable only where it
is writable at the source. -/
theorem Tidy.envPageMap (h : Tidy frugal m₀ managed k) (hp : m₀.Prepared managed)
    (hsrcva : srcva < utop) (hva : dstva < utop)
    (hroom : ∀ page pte, k.memory.pageLookup (k.envs src).envPgdir srcva = .ok (some (page, pte)) →
      perm &&& pteW &&& ~~~(pteW &&& k.memory.readPte pte) = 0 →
        k.Full dst dstva ∨ pgnum perm ||| page = page ∧ k.Countable dst dstva page)
    (hcall : k.envPageMap src srcva dst dstva perm = .ok (r, k')) :
    r < 0 ∧ k' = k ∨ r = 0 ∧ ∃ pdS, (k.envs src).envPgdir = some pdS ∧
      k.memory.mapping pdS srcva ≠ 0 ∧
      pgnum perm ||| pgnum (k.memory.mapping pdS srcva) = pgnum (k.memory.mapping pdS srcva) ∧
      Inserts frugal m₀ managed k k' dst dstva
        (page2pa (pgnum (k.memory.mapping pdS srcva)) ||| perm ||| pteP) := by
  rcases h.envPageMap_cases hsrcva hcall with hrefused | ⟨pdS, pd, m', hsource, hpgdir, hmapped,
    hwrite, hinsert, rfl⟩
  · exact .inl hrefused
  obtain ⟨free, hkept⟩ := h.kept
  have hpdS := root_of_pgdir hsource
  have hpd := root_of_pgdir hpgdir
  have hlookup := pageLookup_eq hkept.exact hpdS (pdx_lt_utop hsrcva) hmapped
  rw [← hsource] at hlookup
  rcases hroom _ _ hlookup (by rw [readPte_tableOf hmapped]; exact hwrite) with
    hfull | ⟨hperm, hlow⟩
  · rw [pageInsert_of_full (hfull.2 pd hpgdir) hfull.1] at hinsert
    obtain ⟨rfl, rfl⟩ := Prod.mk.inj (Except.ok.inj hinsert)
    exact .inl ⟨(by decide : (-eNoMem : ℤ) < 0), rfl⟩
  · rcases hkept.pageInsert hp hpd (pdx_lt_utop hva)
      (hkept.mappable_mapping hpdS (pdx_lt_utop hsrcva) hmapped) (hlow pd hpgdir) hperm
      (fun p hmem ↦ by cases hmem) hinsert with ⟨rfl, hplaced⟩ | ⟨rfl, rfl, -⟩
    · exact .inr ⟨rfl, pdS, hsource, hmapped, hperm,
        h.inserts hpgdir (fun _ _ _ ↦ rfl) hplaced⟩
    · exact .inl ⟨(by decide : (-eNoMem : ℤ) < 0), rfl⟩

section Placed

variable {m m' : Memory} {roots : Finset Ppn} {w : Word}
  (hkept : Kept frugal m₀ m managed roots (pp :: rest) none) (hp : m₀.Prepared managed)
  (hplaced : Placed frugal m₀ (m.fresh pp) m' managed roots rest pd pp va w)
  (hpd : pd ∈ roots) (hva : pdx va < pdx utop) (hpdS : pdS ∈ roots) (hsrcva : pdx srcva < pdx utop)

include hkept hp hplaced hpdS hsrcva in
/-- After a fresh page is mapped at `va`, it is also what is found at `srcva`, or that is as before. -/
theorem mapping_of_placed : m'.mapping pdS srcva = w ∧ m'.mapping pd va = w ∨
    m'.mapping pdS srcva = m.mapping pdS srcva := by
  have hsource := hplaced.remaps.pages (pdS, pdx srcva, some (ptx srcva)) hpdS hsrcva (by simp)
  split at hsource
  · rename_i hhere
    refine .inl ⟨hsource, ?_⟩
    change m'.entry (pd, pdx va, some (ptx va)) = w
    rw [← hhere]
    exact hsource
  · rw [entry_fresh hkept.exact (hkept.forest hp) hpdS hsrcva] at hsource
    exact .inr hsource

include hkept hp hplaced hpd hva hpdS hsrcva in
/-- A page that could be counted before can be counted afterwards, and so can the fresh one. -/
theorem room_of_placed (hmapped : m'.mapping pdS srcva ≠ 0)
    (hroom : m.mapping pdS srcva ≠ 0 → RoomFor m pd va (pgnum (m.mapping pdS srcva))) :
    RoomFor m' pd va (pgnum (m'.mapping pdS srcva)) := by
  rcases mapping_of_placed hkept hp hplaced hpdS hsrcva with ⟨hsource, hhere⟩ | hsource
  · refine .inr ⟨?_, ?_⟩
    · rw [hhere, ← hsource]
      exact hmapped
    · rw [hhere, hsource]
  rw [hsource] at hmapped ⊢
  have hallocated := (hkept.mappable_mapping hpdS hsrcva hmapped).allocated
  rw [List.mem_cons, not_or] at hallocated
  have hcount := hplaced.counts _ hallocated.2 hallocated.1
  have hold : (m.fresh pp).mapping pd va = m.mapping pd va :=
    entry_fresh hkept.exact (hkept.forest hp) (r := (pd, pdx va, some (ptx va))) hpd hva
  rw [fresh_ppRef, hold] at hcount
  have hpos := hkept.exact.pos_of_refers (refers_mapping hpdS hsrcva hmapped)
  refine .inl ?_
  rw [hcount]
  split
  · bv_omega
  · rename_i hother
    have hlow := (hroom hmapped).resolve_right fun hsame ↦ hother ⟨hsame.1, hsame.2.symm⟩
    bv_omega

end Placed

/-- Where `sys_ipc_try_send` gets to its calls, they find the memory that they need. -/
def Sendable (frugal : Prop) (k : Kernel n) (inp : Input) (cur dst : EnvPtr) (srcva perm : Word) :
    Prop :=
  ∀ w, k.ipcSrcpte inp cur srcva = .ok w → ¬ refuses w perm → (k.envs dst).envIpcDstva ≠ 0 →
    ¬ checkPerm (perm ||| pteU ||| pteP) none < 0 →
    (frugal → ¬ k.Spent dst (k.envs dst).envIpcDstva) ∧ ∀ page pte,
      k.memory.pageLookup (k.envs cur).envPgdir srcva = .ok (some (page, pte)) →
        k.memory.pageFreeList ≠ none → k.Countable dst (k.envs dst).envIpcDstva page

/-- The receiver of a page gets a page from the free list, or the page of the sender, or none. -/
theorem Tidy.ipcSendPage (h : Tidy frugal m₀ managed k) (hp : m₀.Prepared managed)
    (hsrcva : srcva < utop) (hok : srcva % pgsize = 0 → k.Sendable frugal inp cur dst srcva perm)
    (hcall : k.ipcSendPage inp cur dst srcva perm = .ok (r, k')) :
    Tidy frugal m₀ managed k' ∧ Gains k k' fun e p ↦
      e = dst ∧ (k.memory.pageFreeList = some p ∨ k.Maps cur srcva p) := by
  have hsame : Tidy frugal m₀ managed k ∧ Gains k k fun e p ↦
      e = dst ∧ (k.memory.pageFreeList = some p ∨ k.Maps cur srcva p) := ⟨h, .refl k⟩
  unfold Kernel.ipcSendPage at hcall
  split at hcall
  · obtain ⟨-, rfl⟩ := Prod.mk.inj (pure_ok.mp hcall)
    exact hsame
  rename_i haligned
  obtain ⟨w, hw, hcall⟩ := bind_ok.mp hcall
  split at hcall
  · obtain ⟨-, rfl⟩ := Prod.mk.inj (pure_ok.mp hcall)
    exact hsame
  rename_i hpresent
  split at hcall
  · obtain ⟨-, rfl⟩ := Prod.mk.inj (pure_ok.mp hcall)
    exact hsame
  rename_i hwrite
  simp only at hcall
  split at hcall
  · obtain ⟨-, rfl⟩ := Prod.mk.inj (pure_ok.mp hcall)
    exact hsame
  rename_i hdstva
  have hsend := hok (not_not.mp haligned) w hw (not_or.mpr ⟨hpresent, hwrite⟩) hdstva
  obtain ⟨⟨r₁, k₁⟩, halloc, hcall⟩ := bind_ok.mp hcall
  simp only at hcall
  rcases h.envPageAlloc hp (h.dstva dst) (fun hfrugal hperm ↦ (hsend hperm).1 hfrugal) halloc with
    ⟨hneg, htidy₁, hshrinks₁⟩ | ⟨rfl, hzero, pd, pp, rest, m, hpgdir, hkept, rfl, hplaced⟩
  · rw [if_pos hneg] at hcall
    obtain ⟨-, rfl⟩ := Prod.mk.inj (pure_ok.mp hcall)
    exact ⟨htidy₁, hshrinks₁.gains⟩
  have hperm : ¬ checkPerm (perm ||| pteU ||| pteP) none < 0 := by
    intro hbad
    rw [envPageAlloc_of_bad_perm hbad] at halloc
    exact absurd (Prod.mk.inj (Except.ok.inj halloc)).1 (by decide)
  have hhead := hkept.exact.pageFreeList_cons
  obtain ⟨hinserts, hfresh⟩ := h.allocated hp hzero hpgdir hkept hplaced
  rw [if_neg (Int.lt_irrefl 0)] at hcall
  obtain ⟨⟨r₂, k₂⟩, hmap, hcall⟩ := bind_ok.mp hcall
  simp only at hcall
  have hmid := hinserts.tidy.envPageMap hp hsrcva (h.dstva dst) (fun page pte hlookup _ ↦ ?_) hmap
  · rcases hmid with ⟨hneg, rfl⟩ | ⟨rfl, pdS, hpdS, hmapped, -, hmaps⟩
    · rw [if_pos hneg] at hcall
      obtain ⟨-, rfl⟩ := Prod.mk.inj (pure_ok.mp hcall)
      exact ⟨hinserts.tidy, hfresh.mono fun e p hgain ↦ ⟨hgain.1, .inl hgain.2⟩⟩
    · rw [if_neg (Int.lt_irrefl 0)] at hcall
      obtain ⟨-, rfl⟩ := Prod.mk.inj (pure_ok.mp hcall)
      refine ⟨hmaps.tidy.setEnv rfl (hmaps.tidy.dstva dst), ?_⟩
      have hgains := hfresh.trans (hmaps.gains hinserts.tidy)
      refine Gains.mono (hgains.shrinks (Shrinks.setEnv rfl)) fun e p hgain ↦ ?_
      rcases hgain with hnew | ⟨he, hpage⟩
      · exact ⟨hnew.1, .inl hnew.2⟩
      · refine ⟨he, ?_⟩
        change p = pgnum (page2pa (pgnum (m.mapping pdS srcva)) ||| _ ||| pteP) at hpage
        rw [pgnum_entry (by rw [hzero]; exact BitVec.zero_or)] at hpage
        rcases mapping_of_placed hkept hp hplaced (root_of_pgdir hpdS) (pdx_lt_utop hsrcva) with
          ⟨hsource, -⟩ | hsource
        · rw [hpage, hsource, pgnum_entry (by rw [hzero]; exact BitVec.zero_or)]
          exact .inl hhead
        · refine .inr ⟨pdS, hpdS, ?_, ?_⟩
          · rw [← hsource]
            exact hmapped
          · rw [hpage, hsource]
  refine .inr ⟨by rw [hzero]; exact BitVec.zero_or, fun pd' hpd' ↦ ?_⟩
  obtain rfl := Option.some.inj (hpgdir.symm.trans hpd')
  cases hsource : (k.envs cur).envPgdir with
  | none =>
    change m.pageLookup (k.envs cur).envPgdir srcva = _ at hlookup
    rw [hsource] at hlookup
    cases hlookup
  | some pdS =>
    obtain ⟨free', hkept', -⟩ := hplaced.kept
    have hpdS := root_of_pgdir hsource
    have hlow := pdx_lt_utop hsrcva
    change m.pageLookup (k.envs cur).envPgdir srcva = _ at hlookup
    rw [hsource] at hlookup
    have hmapped : m.mapping pdS srcva ≠ 0 := by
      intro hnone
      rw [pageLookup_eq_none hkept'.exact hpdS hlow hnone] at hlookup
      cases hlookup
    rw [pageLookup_eq hkept'.exact hpdS hlow hmapped] at hlookup
    obtain ⟨rfl, rfl⟩ := Prod.mk.inj (Option.some.inj (Except.ok.inj hlookup))
    refine room_of_placed hkept hp hplaced (root_of_pgdir hpgdir) (pdx_lt_utop (h.dstva dst)) hpdS
      hlow hmapped fun hold ↦ ?_
    have hfound := pageLookup_eq hkept.exact hpdS hlow hold
    rw [← hsource] at hfound
    exact (hsend hperm).2 _ _ hfound (by rw [hhead]; simp) pd hpgdir

end Kernel

/-! ## The three system calls -/

/-- A system call that finds the memory for the page that it maps, and counts it. -/
structure Call.Careful (frugal : Prop) (k : Kernel n) (c : Fin n) (inp : Input) (call : Call) :
    Prop where
  pageAlloc : frugal → call.no = .pageAlloc → badVa call.a2 = false →
    ∀ e, k.envid2env c call.a1 true = .ok (some e) →
      ¬ checkPerm (call.a3 ||| pteU ||| pteP) none < 0 → ¬ k.Spent e call.a2
  pageMap : call.no = .pageMap → badVa call.a2 = false → badVa call.a4 = false →
    ∀ src dst, k.envid2env c call.a1 true = .ok (some src) →
      k.envid2env c call.a3 true = .ok (some dst) → ∀ page pte,
        k.memory.pageLookup (k.envs src).envPgdir call.a2 = .ok (some (page, pte)) →
          call.a5 &&& pteW &&& ~~~(pteW &&& k.memory.readPte pte) = 0 →
            k.Full dst call.a4 ∨ pgnum call.a5 ||| page = page ∧ k.Countable dst call.a4 page
  send : call.no = .ipcTrySend → ∀ cur dst, k.curenv c = some cur →
    k.envid2env c call.a1 false = .ok (some dst) → (k.envs dst).envIpcRecving = true →
      call.a3 < utop → call.a3 % pgsize = 0 → k.Sendable frugal inp cur dst call.a3 call.a4

/-- A page that a system call gives to an environment: one from the free list, or one of the
environment that shares it. -/
def Kernel.Grants (k : Kernel n) (c : Fin n) (call : Call) (e : EnvPtr) (p : Ppn) : Prop :=
  match call.no with
  | .pageAlloc => k.envid2env c call.a1 true = .ok (some e) ∧ k.memory.pageFreeList = some p
  | .pageMap => k.envid2env c call.a3 true = .ok (some e) ∧
      ∃ src, k.envid2env c call.a1 true = .ok (some src) ∧ k.Maps src call.a2 p
  | .ipcTrySend => k.envid2env c call.a1 false = .ok (some e) ∧ (k.envs e).envIpcRecving = true ∧
      (k.memory.pageFreeList = some p ∨ ∃ cur, k.curenv c = some cur ∧ k.Maps cur call.a3 p)
  | _ => False

namespace Kernel

theorem lt_of_badVa (h : ¬ badVa va = true) : va < utop := by
  simp only [badVa, Bool.or_eq_true, decide_eq_true_eq, not_or] at h
  exact BitVec.not_le.mp h.1

section Calls

variable {call : Call} (h : Tidy frugal m₀ managed k) (hp : m₀.Prepared managed)
  (hok : call.Careful frugal k c inp)

include h hp hok in
theorem Tidy.sysPageAlloc (hno : call.no = .pageAlloc)
    (hcall : k.sysPageAlloc c call.a1 call.a2 call.a3 = .ok (r, k')) :
    Tidy frugal m₀ managed k' ∧ Gains k k' (k.Grants c call) := by
  unfold Kernel.sysPageAlloc at hcall
  split at hcall
  · obtain ⟨-, rfl⟩ := Prod.mk.inj (pure_ok.mp hcall)
    exact ⟨h, .refl k⟩
  rename_i hva
  obtain ⟨found, hfound, hcall⟩ := bind_ok.mp hcall
  cases found with
  | none =>
    obtain ⟨-, rfl⟩ := Prod.mk.inj (pure_ok.mp hcall)
    exact ⟨h, .refl k⟩
  | some e =>
    rcases h.envPageAlloc hp (lt_of_badVa hva)
      (fun hfrugal ↦ hok.pageAlloc hfrugal hno (Bool.not_eq_true _ ▸ hva) e hfound) hcall with
      ⟨-, htidy, hshrinks⟩ | ⟨rfl, hzero, pd, pp, rest, m, hpgdir, hkept, rfl, hplaced⟩
    · exact ⟨htidy, hshrinks.gains⟩
    · obtain ⟨hinserts, hfresh⟩ := h.allocated hp hzero hpgdir hkept hplaced
      refine ⟨hinserts.tidy, hfresh.mono ?_⟩
      rintro e' p ⟨rfl, hhead⟩
      rw [Grants, hno]
      exact ⟨hfound, hhead⟩

theorem pgnum_or_flags (perm : Word) : pgnum (pteP ||| pteU ||| perm) = pgnum perm := by
  rw [pgnum_or, (pgnum_of_lt (by decide) : pgnum (pteP ||| pteU) = 0)]
  exact BitVec.zero_or

/-- The flags that `sys_page_map` adds do not make a page writable. -/
theorem write_flags (perm w : Word) :
    (pteP ||| pteU ||| perm) &&& pteW &&& w = perm &&& pteW &&& w := by
  rw [BitVec.and_or_distrib_right, (by decide : (pteP ||| pteU) &&& pteW = 0)]
  exact congrArg (· &&& w) BitVec.zero_or

include h hp hok in
theorem Tidy.sysPageMap (hno : call.no = .pageMap)
    (hcall : k.sysPageMap c call.a1 call.a2 call.a3 call.a4 call.a5 = .ok (r, k')) :
    Tidy frugal m₀ managed k' ∧ Gains k k' (k.Grants c call) := by
  unfold Kernel.sysPageMap at hcall
  split at hcall
  · obtain ⟨-, rfl⟩ := Prod.mk.inj (pure_ok.mp hcall)
    exact ⟨h, .refl k⟩
  rename_i hsrcva
  split at hcall
  · obtain ⟨-, rfl⟩ := Prod.mk.inj (pure_ok.mp hcall)
    exact ⟨h, .refl k⟩
  rename_i hdstva
  obtain ⟨found, hsource, hcall⟩ := bind_ok.mp hcall
  cases found with
  | none =>
    obtain ⟨-, rfl⟩ := Prod.mk.inj (pure_ok.mp hcall)
    exact ⟨h, .refl k⟩
  | some src =>
    obtain ⟨found, htarget, hcall⟩ := bind_ok.mp hcall
    cases found with
    | none =>
      obtain ⟨-, rfl⟩ := Prod.mk.inj (pure_ok.mp hcall)
      exact ⟨h, .refl k⟩
    | some dst =>
      have hmap := h.envPageMap hp (lt_of_badVa hsrcva) (lt_of_badVa hdstva)
        (fun page pte hlookup hwrite ↦ ?_) hcall
      · rcases hmap with ⟨-, rfl⟩ | ⟨-, pdS, hpdS, hmapped, hperm, hmaps⟩
        · exact ⟨h, .refl _⟩
        refine ⟨hmaps.tidy, (hmaps.gains h).mono ?_⟩
        rintro e' p ⟨rfl, rfl⟩
        rw [Grants, hno]
        exact ⟨htarget, src, hsource, pdS, hpdS, hmapped, pgnum_entry hperm⟩
      · rw [pgnum_or_flags]
        rw [write_flags] at hwrite
        exact hok.pageMap hno (Bool.not_eq_true _ ▸ hsrcva) (Bool.not_eq_true _ ▸ hdstva) src dst
          hsource htarget page pte hlookup hwrite

include h hp hok in
theorem Tidy.sysIpcTrySend (hno : call.no = .ipcTrySend)
    (hcall : k.sysIpcTrySend c inp call.a1 call.a2 call.a3 call.a4 = .ok (r, k')) :
    Tidy frugal m₀ managed k' ∧ Gains k k' (k.Grants c call) := by
  unfold Kernel.sysIpcTrySend at hcall
  obtain ⟨found, hfound, hcall⟩ := bind_ok.mp hcall
  cases found with
  | none =>
    obtain ⟨-, rfl⟩ := Prod.mk.inj (pure_ok.mp hcall)
    exact ⟨h, .refl k⟩
  | some dst =>
    simp only at hcall
    split at hcall
    · obtain ⟨-, rfl⟩ := Prod.mk.inj (pure_ok.mp hcall)
      exact ⟨h, .refl k⟩
    rename_i hrecving
    rw [Bool.not_eq_false] at hrecving
    obtain ⟨cur, hcur, hcall⟩ := bind_ok.mp hcall
    split at hcall
    · obtain ⟨-, rfl⟩ := Prod.mk.inj (pure_ok.mp hcall)
      have hquiet : Tidy frugal m₀ managed (k.setEnv dst { k.envs dst with envIpcPerm := 0 }) :=
        h.setEnv rfl (h.dstva dst)
      have hshrinks : Shrinks k (k.setEnv dst { k.envs dst with envIpcPerm := 0 }) :=
        Shrinks.setEnv rfl
      exact ⟨hquiet.setEnv rfl (hquiet.dstva dst),
        Gains.shrinks hshrinks.gains (Shrinks.setEnv rfl)⟩
    · rename_i hsrcva
      obtain ⟨⟨r', k₁⟩, hsend, hcall⟩ := bind_ok.mp hcall
      obtain ⟨htidy, hgains⟩ := h.ipcSendPage hp (BitVec.not_le.mp hsrcva)
        (hok.send hno cur dst (theCurenv_ok hcur) hfound hrecving (BitVec.not_le.mp hsrcva)) hsend
      have hgrants : Gains k k₁ (k.Grants c call) := by
        refine hgains.mono ?_
        rintro e' p ⟨rfl, hpage⟩
        rw [Grants, hno]
        exact ⟨hfound, hrecving, hpage.imp_right fun hmaps ↦ ⟨cur, theCurenv_ok hcur, hmaps⟩⟩
      simp only at hcall
      split at hcall
      · obtain ⟨-, rfl⟩ := Prod.mk.inj (pure_ok.mp hcall)
        exact ⟨htidy, hgrants⟩
      · obtain ⟨-, rfl⟩ := Prod.mk.inj (pure_ok.mp hcall)
        exact ⟨htidy.setEnv rfl (htidy.dstva dst), Gains.shrinks hgrants (Shrinks.setEnv rfl)⟩

end Calls

end Kernel

end SistemasOperativos.Jos
