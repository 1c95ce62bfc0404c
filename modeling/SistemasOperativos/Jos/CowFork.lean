import SistemasOperativos.Jos.CowFault
import SistemasOperativos.Jos.Isolation
import SistemasOperativos.Jos.UserMemCheck

/-!
# Copy-on-write fork

`fork` of `lib/fork.c`, a user program that reads its page tables through the windows at `UVPT` and
makes all changes by system calls. It runs by itself, and its variables are not in its pages: its own
stack is one of the pages that it goes through.
-/

namespace SistemasOperativos.Jos

open Library Library.Except

/-- The page directory, as the window at `UVPT` shows it. -/
def uvpd : Word := uvpt + uvpt >>> 12 * 4

/-- `&uvpd[pnum >> 10]`. -/
def uvpdWord (pnum : ℕ) : Word := uvpd + BitVec.ofNat 32 pnum >>> 10 * 4

/-- `&uvpt[pnum]`. -/
def uvptWord (pnum : ℕ) : Word := uvpt + BitVec.ofNat 32 pnum * 4

/-- The calls of `panic` in `fork` and `duppage`. -/
inductive ForkPanic where
  | exofork
  | notUser
  | mapChild
  | mapParent
  | mapReadOnly
  | exceptionStack
  | upcall
  | status
deriving DecidableEq

/-- How the program comes out of `fork`. -/
inductive ForkEnding where
  | returns (envid : ℤ)
  | panics (call : ForkPanic)
  /-- A read of the program is a page fault. -/
  | faults
  /-- The kernel destroys the program. -/
  | destroyed
deriving DecidableEq

variable {n : ℕ}

/-- The value of `_pgfault_handler` decides; `upcall` is the address of `_pgfault_upcall`. -/
def setPgfaultHandler (s : Scheduler) (c : Fin n) (handler : Bool) (upcall : Word) (k : Kernel n) :
    Except Fault (Control Unit × Kernel n) :=
  if handler then .ok (.returns (), k)
  else do
    let (r, k) ← k.sysPageAlloc c 0 exstk (pteU ||| pteP ||| pteW)
    if r < 0 then return (.returns (), k)
    match ← k.sysEnvSetPgfaultUpcall s c 0 upcall with
    | (.leaves, k) => return (.leaves, k)
    | (.returns _, k) => return (.returns (), k)

/-- The permission for the child. -/
def dupPerm (pte : Word) : Word :=
  let perm := pteU ||| pteP
  if pte &&& (ptePcd ||| ptePwt) ≠ 0 then perm ||| (ptePcd ||| ptePwt) else perm

def duppage (c : Fin n) (envid : Word) (pn : ℕ) (k : Kernel n) :
    Except Fault (ForkEnding × Kernel n) :=
  let addr := BitVec.ofNat 32 pn <<< 12
  match k.memory.loadWord (k.cpus c).cr3 (uvptWord pn) with
  | none => .ok (.faults, k)
  | some pte =>
    if pte &&& pteP = 0 ∨ pte &&& pteU = 0 then .ok (.panics .notUser, k)
    else if pte &&& pteW ≠ 0 ∨ pte &&& pteCow ≠ 0 then do
      let (r, k) ← k.sysPageMap c 0 addr envid addr (dupPerm pte ||| pteCow)
      if r < 0 then return (.panics .mapChild, k)
      let (r, k) ← k.sysPageMap c 0 addr 0 addr (dupPerm pte ||| pteCow)
      if r < 0 then return (.panics .mapParent, k)
      return (.returns 0, k)
    else do
      let (r, k) ← k.sysPageMap c 0 addr envid addr (dupPerm pte)
      if r < 0 then return (.panics .mapReadOnly, k)
      return (.returns 0, k)

/-- The loop of `fork` over the pages below `UTOP`. -/
def forkFrom (c : Fin n) (envid : Word) : ℕ → ℕ → Kernel n → Except Fault (ForkEnding × Kernel n)
  | 0, _, k => .ok (.returns 0, k)
  | turns + 1, pnum, k =>
    if pnum = uxstacktop.toNat / 4096 - 1 then forkFrom c envid turns (pnum + 1) k
    else match k.memory.loadWord (k.cpus c).cr3 (uvpdWord pnum) with
      | none => .ok (.faults, k)
      | some pde =>
        if pde &&& pteP = 0 ∨ pde &&& pteU = 0 then forkFrom c envid turns (pnum + 1) k
        else match k.memory.loadWord (k.cpus c).cr3 (uvptWord pnum) with
          | none => .ok (.faults, k)
          | some pte =>
            if pte &&& pteP = 0 ∨ pte &&& pteU = 0 then forkFrom c envid turns (pnum + 1) k
            else do
              match ← duppage c envid pnum k with
              | (.returns _, k) => forkFrom c envid turns (pnum + 1) k
              | stopped => return stopped

/-- The registers at `sys_exofork` are `tf`. The program reads `env_pgfault_upcall` in the window at
`UENVS`, in the slot that its variable `thisenv` points to. -/
def fork (s : Scheduler) (c : Fin n) (handler : Bool) (upcall : Word) (thisenv : EnvPtr)
    (tf : Trapframe) (k : Kernel n) : Except Fault (ForkEnding × Kernel n) := do
  match ← setPgfaultHandler s c handler upcall k with
  | (.leaves, k) => return (.destroyed, k)
  | (.returns _, k) =>
    let cur ← k.theCurenv c
    let (envid, k) ← (k.setTf (some cur) tf).sysExofork c
    if envid < 0 then return (.panics .exofork, k)
    -- The child goes on from here with 0.
    if envid = 0 then return (.returns 0, k)
    let child := BitVec.ofInt 32 envid
    match ← forkFrom c child (utop.toNat / 4096) 0 k with
    | (.returns _, k) =>
      let (r, k) ← k.sysPageAlloc c child exstk (pteU ||| pteP ||| pteW)
      if r < 0 then return (.panics .exceptionStack, k)
      match ← k.sysEnvSetPgfaultUpcall s c child (k.envs thisenv).envPgfaultUpcall with
      | (.leaves, k) => return (.destroyed, k)
      | (.returns r, k) =>
        if r < 0 then return (.panics .upcall, k)
        let (r, k) ← k.sysEnvSetStatus c child 2
        if r < 0 then return (.panics .status, k)
        return (.returns envid, k)
    | stopped => return stopped

namespace Memory

variable {frugal : Prop} {m₀ m m' : Memory} {managed free free' rest : List Ppn} {roots : Finset Ppn}
  {hand : Option Ppn} {pd pd' pp q table : Ppn} {va va' w perm : Word} {d : Slot}

/-! ## Mapping one more page -/

theorem mapping_of_samePage (h : SamePage pd pd' va va') : m.mapping pd' va' = m.mapping pd va := by
  obtain ⟨rfl, hpdx, hptx⟩ := h
  unfold mapping
  rw [hpdx, hptx]

/-- A page has been mapped where nothing was mapped. -/
structure Gained (frugal : Prop) (m₀ m m' : Memory) (managed : List Ppn) (roots : Finset Ppn)
    (free free' : List Ppn) (pd pp : Ppn) (va w : Word) : Prop where
  kept : Kept frugal m₀ m' managed roots free' none
  mapping : ∀ pd' ∈ roots, ∀ va', pdx va' < pdx utop →
    m'.mapping pd' va' = if SamePage pd pd' va va' then w else m.mapping pd' va'
  tables : ∀ pd' ∈ roots, ∀ d, ¬ (pd' = pd ∧ d = pdx va ∧ m.word pd (pdx va) = 0) →
    m'.word pd' d = m.word pd' d
  table : m.word pd (pdx va) = 0 → m'.word pd (pdx va) &&& userWrite = userWrite
  contents : ∀ q, Mappable m managed roots free q →
    m'.word q = m.word q ∧ Mappable m' managed roots free' q
  counts : ∀ q ∉ free, (m'.pages q).ppRef = (m.pages q).ppRef + if q = pp then 1 else 0
  supply : free = free' ∨ m.word pd (pdx va) = 0 ∧ ∃ table, free = table :: free'

/-- A page from the free list is mapped in the place of what was mapped there. -/
structure Renewed (frugal : Prop) (m₀ m m' : Memory) (managed : List Ppn) (roots : Finset Ppn)
    (free free' : List Ppn) (pd pp : Ppn) (va w : Word) : Prop where
  kept : Kept frugal m₀ m' managed roots free' none
  mapping : ∀ pd' ∈ roots, ∀ va', pdx va' < pdx utop →
    m'.mapping pd' va' = if SamePage pd pd' va va' then w else m.mapping pd' va'
  tables : ∀ pd' ∈ roots, ∀ d, ¬ (pd' = pd ∧ d = pdx va ∧ m.word pd (pdx va) = 0) →
    m'.word pd' d = m.word pd' d
  table : m.word pd (pdx va) = 0 → m'.word pd (pdx va) &&& userWrite = userWrite
  contents : ∀ q, Mappable m managed roots free q → m'.word q = m.word q
  counts : ∀ q ∉ free, (m'.pages q).ppRef.toNat ≤ (m.pages q).ppRef.toNat
  zeroed : (∀ t, m'.word pp t = 0) ∧ (m'.pages pp).ppRef = 1
  supply : free.length ≤ free'.length + 2

namespace Kept

variable (h : Kept frugal m₀ m managed roots free hand) (hp : m₀.Prepared managed) (hpd : pd ∈ roots)
  (hva : pdx va < pdx utop) (hempty : m.mapping pd va = 0) (hpp : Mappable m managed roots free pp)
  (hroom : (m.pages pp).ppRef ≠ 0xffff) (hw : w &&& pteP ≠ 0) (hpage : pgnum w = pp)
  (hhand : ∀ p ∈ hand, p = pp)

include h hp hpd hva in
theorem mapping_mapped (htable : m.word pd (pdx va) ≠ 0) (hpd' : pd' ∈ roots)
    (hva' : pdx va' < pdx utop) : (m.mapped pd pp va w).mapping pd' va' =
      if SamePage pd pd' va va' then w else m.mapping pd' va' := by
  have hentry := mapped_entry pp (w := w) (r := (pd', pdx va', some (ptx va'))) (h.forest hp) hpd hva
    htable hpd' hva'
  change Memory.mapping _ pd' va' = _ at hentry
  rw [hentry]
  by_cases hhere : SamePage pd pd' va va'
  · rw [if_pos hhere, if_pos (by rw [hhere.1, hhere.2.1, hhere.2.2])]
  · rw [if_neg hhere, if_neg fun heq ↦ hhere (by simpa [SamePage] using heq)]
    rfl

include h hp hpd hva in
/-- Writing an entry leaves the pages alone that can be mapped. -/
theorem contents_mapped (htable : m.word pd (pdx va) ≠ 0) (hq : Mappable m managed roots free q) :
    (m.mapped pd pp va w).word q = m.word q ∧
      Mappable (m.mapped pd pp va w) managed roots free q := by
  refine ⟨?_, hq.managed, hq.allocated, hq.root, fun pd' d href ↦ hq.table pd' d ?_⟩
  · funext t
    rw [mapped_word, writePte_word, if_neg fun hhere ↦ tableOf_ne hpd hva htable hq hhere.1]
  · obtain ⟨hpd', hd, hentry, hpage⟩ := refers_some href
    have hroot : (m.mapped pd pp va w).word pd' d = m.word pd' d :=
      mapped_root pp (h.forest hp) hpd hva htable hpd' d
    change (m.mapped pd pp va w).word pd' d ≠ 0 at hentry
    change pgnum ((m.mapped pd pp va w).word pd' d) = q at hpage
    rw [hroot] at hentry hpage
    rw [refers_table hpd' hd hentry, hpage]

include h hp hpd hva hempty hpp hroom hw hpage hhand in
theorem gained_of_table (htable : m.word pd (pdx va) ≠ 0) :
    Gained frugal m₀ m (m.mapped pd pp va w) managed roots free free pd pp va w := by
  have hkept := h.mapped hp hpd hva htable hpp hw hpage hroom hhand
  have hfree : m.freeMapped pd pp va free = free := if_pos hempty
  rw [hfree] at hkept
  refine ⟨hkept, fun pd' hpd' va' hva' ↦ ?_, fun pd' hpd' d _ ↦ ?_, fun hnone ↦ ?_, fun q hq ↦ ?_,
    fun q _ ↦ ?_, .inl rfl⟩
  · exact h.mapping_mapped hp hpd hva htable hpd' hva'
  · exact mapped_root pp (h.forest hp) hpd hva htable hpd' d
  · exact absurd hnone htable
  · exact h.contents_mapped hp hpd hva htable hq
  · rw [mapped_ppRef, if_neg (c := m.mapping pd va ≠ 0 ∧ q = pgnum (m.mapping pd va))
      fun hmapped ↦ hmapped.1 hempty]
    exact BitVec.sub_zero _

include h hp hpd hva hempty hpp hroom hhand in
/-- `page_insert` where nothing is mapped, with a page table or a page for one. -/
theorem pageInsert_gained (hperm : pgnum perm ||| pp = pp)
    (hfree : m.word pd (pdx va) = 0 → free ≠ []) : ∃ m' free',
      m.pageInsert (some pd) pp va perm = .ok (0, m') ∧
        Gained frugal m₀ m m' managed roots free free' pd pp va (page2pa pp ||| perm ||| pteP) := by
  have hw : (page2pa pp ||| perm ||| pteP) &&& pteP ≠ 0 := or_pteP_and_pteP _
  have hpage := pgnum_entry hperm
  by_cases htable : m.word pd (pdx va) = 0
  swap
  · exact ⟨_, free, pageInsert_of_table pp perm h.exact hpd hva htable,
      h.gained_of_table hp hpd hva hempty hpp hroom hw hpage hhand htable⟩
  cases free with
  | nil => exact absurd rfl (hfree htable)
  | cons table rest =>
    have hnot := hpp.allocated
    rw [List.mem_cons, not_or] at hnot
    have htabled := tabled_withTable h.exact (h.forest hp) hpd hva htable
    have hmappable : ∀ q, Mappable m managed roots (table :: rest) q →
        Mappable (m.withTable pd (pdx va) table) managed roots rest q := fun q hq ↦
      ⟨hq.managed, (htabled.pages q hq.allocated).2, hq.root,
        fun pd' d' href ↦ hq.table pd' d' (htabled.tables q hq.allocated pd' d' href)⟩
    have hroom' : ((m.withTable pd (pdx va) table).pages pp).ppRef ≠ 0xffff := by
      rw [(htabled.pages pp hpp.allocated).1]
      exact hroom
    obtain ⟨hkept, hmapping, htables, -, hcontents, hcounts, -⟩ :=
      (h.withTable hp hpd hva htable).gained_of_table hp hpd hva
        ((htabled.mapping pd hpd va hva).trans hempty) (hmappable pp hpp) hroom' hw hpage hhand
        htabled.table
    have hroot : ∀ pd' ∈ roots, ∀ d, (m.withTable pd (pdx va) table).word pd' d =
        if pd' = pd ∧ d = pdx va then tablePde table else m.word pd' d := by
      intro pd' hpd' d
      rw [withTable_word, if_neg ((h.forest hp).root_ne hpd')]
    have hkeeps : ∀ pd' ∈ roots, ∀ d, _ := fun pd' hpd' d ↦
      htables pd' hpd' d fun hnone ↦ htabled.table hnone.2.2
    refine ⟨_, rest, pageInsert_of_free h.exact (h.forest hp) hpd hva htable, hkept,
      fun pd' hpd' va' hva' ↦ ?_, fun pd' hpd' d hother ↦ ?_, fun _ ↦ ?_, fun q hq ↦ ?_,
      fun q hq ↦ ?_, .inr ⟨htable, table, rfl⟩⟩
    · rw [hmapping pd' hpd' va' hva', htabled.mapping pd' hpd' va' hva']
    · rw [hkeeps pd' hpd' d, hroot pd' hpd' d, if_neg fun hhere ↦ hother ⟨hhere.1, hhere.2, htable⟩]
    · rw [hkeeps pd hpd, hroot pd hpd, if_pos ⟨rfl, rfl⟩]
      exact tablePde_and_userWrite table
    · obtain ⟨hsame, hstill⟩ := hcontents q (hmappable q hq)
      exact ⟨hsame.trans (htabled.contents q hq.allocated hq.root), hstill⟩
    · rw [hcounts q (htabled.pages q hq).2, (htabled.pages q hq).1]

include h hp hpd hva in
/-- `page_insert` of the page that is mapped there already only writes the entry. -/
theorem pageInsert_again (hmapped : m.mapping pd va ≠ 0) (hsame : pgnum (m.mapping pd va) = pp)
    (hperm : pgnum perm ||| pp = pp) (hnone : hand = none) :
    ∃ m', m.pageInsert (some pd) pp va perm = .ok (0, m') ∧
      Kept frugal m₀ m' managed roots free none ∧ m'.pages = m.pages ∧
      (∀ pd' ∈ roots, ∀ va', pdx va' < pdx utop → m'.mapping pd' va' =
        if SamePage pd pd' va va' then page2pa pp ||| perm ||| pteP else m.mapping pd' va') ∧
      (∀ pd' ∈ roots, ∀ d, m'.word pd' d = m.word pd' d) ∧
      ∀ q, Mappable m managed roots free q →
        m'.word q = m.word q ∧ Mappable m' managed roots free q := by
  have hw : (page2pa pp ||| perm ||| pteP) &&& pteP ≠ 0 := or_pteP_and_pteP _
  have htable := table_of_mapping hmapped
  have hkept := h.mapped_again hp hpd hva hmapped hsame hw (pgnum_entry hperm) (by
    rw [hnone]
    exact fun _ hmem ↦ nomatch hmem)
  refine ⟨_, pageInsert_of_table pp perm h.exact hpd hva htable, hkept, ?_, fun pd' hpd' va' hva' ↦ ?_,
    fun pd' hpd' d ↦ mapped_root pp (h.forest hp) hpd hva htable hpd' d,
    fun q hq ↦ h.contents_mapped hp hpd hva htable hq⟩
  · rw [mapped_same h.exact hpd hva hmapped hsame]
    rfl
  · exact h.mapping_mapped hp hpd hva htable hpd' hva'

include hp hpd hva in
/-- `page_insert` of a fresh page, whether something is mapped there or not. -/
theorem pageInsert_renewed {frugal : Prop} {m : Memory} {rest : List Ppn}
    (h : Kept frugal m₀ m managed roots (pp :: rest) none) (hperm : pgnum perm ||| pp = pp)
    (hfree : rest ≠ []) : ∃ m' free', (m.fresh pp).pageInsert (some pd) pp va perm = .ok (0, m') ∧
      Renewed frugal m₀ m m' managed roots (pp :: rest) free' pd pp va
        (page2pa pp ||| perm ||| pteP) := by
  have hfresh := h.fresh hp
  have hpp := hfresh.mappable_hand
  have hunused : ((m.fresh pp).pages pp).ppRef = 0 := (hfresh.taken pp rfl).2.2
  have hroom : ((m.fresh pp).pages pp).ppRef ≠ 0xffff := by
    rw [hunused]
    decide
  have hhand : ∀ p ∈ some pp, p = pp := fun p hmem ↦ (Option.some.inj hmem).symm
  have hsame : ∀ pd' ∈ roots, ∀ va', pdx va' < pdx utop →
      (m.fresh pp).mapping pd' va' = m.mapping pd' va' := fun pd' hpd' va' hva' ↦
    entry_fresh h.exact (h.forest hp) (r := (pd', pdx va', some (ptx va'))) hpd' hva'
  have hroot : ∀ pd' ∈ roots, ∀ d, (m.fresh pp).word pd' d = m.word pd' d := by
    intro pd' hpd' d
    rw [fresh_word, if_neg ((h.forest hp).root_ne hpd')]
  have hzero : ∀ t, (m.fresh pp).word pp t = 0 := fun t ↦ by rw [fresh_word, if_pos rfl]
  have hother : ∀ q, Mappable m managed roots (pp :: rest) q →
      (m.fresh pp).word q = m.word q ∧ Mappable (m.fresh pp) managed roots rest q := by
    intro q hq
    have hne := h.ne_of_mappable hq
    refine ⟨?_, hq.managed, fun hmem ↦ hq.allocated (List.mem_cons_of_mem pp hmem), hq.root,
      fun pd' d href ↦ hq.table pd' d ?_⟩
    · funext t
      rw [fresh_word, if_neg hne]
    · rw [refers_fresh h.exact (h.forest hp)] at href
      exact href
  by_cases hempty : (m.fresh pp).mapping pd va = 0
  · obtain ⟨m', free', hinsert, hgained⟩ := hfresh.pageInsert_gained hp hpd hva hempty hpp hroom
      hhand hperm fun _ ↦ hfree
    refine ⟨m', free', hinsert, hgained.kept, fun pd' hpd' va' hva' ↦ ?_, fun pd' hpd' d hd ↦ ?_,
      fun hnone ↦ hgained.table ((hroot pd hpd _).trans hnone), fun q hq ↦ ?_, fun q hq ↦ ?_,
      ⟨fun t ↦ ?_, ?_⟩, ?_⟩
    · rw [hgained.mapping pd' hpd' va' hva', hsame pd' hpd' va' hva']
    · rw [hgained.tables pd' hpd' d (by rw [hroot pd hpd]; exact hd), hroot pd' hpd' d]
    · obtain ⟨hword, hstill⟩ := hother q hq
      exact (hgained.contents q hstill).1.trans hword
    · rw [List.mem_cons, not_or] at hq
      rw [hgained.counts q hq.2, if_neg hq.1, fresh_ppRef]
      exact Nat.le_of_eq (congrArg BitVec.toNat (BitVec.add_zero _))
    · rw [(hgained.contents pp hpp).1, hzero]
    · rw [hgained.counts pp hpp.allocated, if_pos rfl, hunused]
      rfl
    · rcases hgained.supply with hlist | ⟨-, table, hlist⟩
      · rw [hlist, List.length_cons]
        omega
      · rw [hlist, List.length_cons, List.length_cons]
  · have htable := table_of_mapping hempty
    have hw : (page2pa pp ||| perm ||| pteP) &&& pteP ≠ 0 := or_pteP_and_pteP _
    have hold := hfresh.mappable_mapping hpd hva hempty
    have hdistinct : pgnum ((m.fresh pp).mapping pd va) ≠ pp := by
      intro heq
      exact hfresh.hand_unused.2 _ (heq ▸ refers_mapping hpd hva hempty)
    refine ⟨_, _, pageInsert_of_table pp perm hfresh.exact hpd hva htable,
      hfresh.mapped hp hpd hva htable hpp hw (pgnum_entry hperm) hroom hhand,
      fun pd' hpd' va' hva' ↦ ?_, fun pd' hpd' d _ ↦ ?_, fun hnone ↦ ?_, fun q hq ↦ ?_,
      fun q hq ↦ ?_, ⟨fun t ↦ ?_, ?_⟩, ?_⟩
    · rw [hfresh.mapping_mapped hp hpd hva htable hpd' hva', hsame pd' hpd' va' hva']
    · rw [mapped_root pp (hfresh.forest hp) hpd hva htable hpd' d, hroot pd' hpd' d]
    · exact absurd ((hroot pd hpd _).trans hnone) htable
    · obtain ⟨hword, hstill⟩ := hother q hq
      exact (hfresh.contents_mapped hp hpd hva htable hstill).1.trans hword
    · rw [List.mem_cons, not_or] at hq
      rw [mapped_ppRef, if_neg hq.1, fresh_ppRef]
      split
      · rename_i hhere
        have hpos := hfresh.exact.pos_of_refers (refers_mapping hpd hva hempty)
        rw [← hhere.2, fresh_ppRef] at hpos
        bv_omega
      · bv_omega
    · rw [(hfresh.contents_mapped hp hpd hva htable hpp).1, hzero]
    · rw [mapped_ppRef, if_pos rfl, if_neg fun hhere ↦ hdistinct hhere.2.symm, hunused]
      rfl
    · rw [freeMapped, freeRemoved, incref_mapping, if_neg hempty, freeAfter]
      split
      · simp only [List.length_cons]
        omega
      · simp only [List.length_cons]
        omega

end Kept

/-! ## The windows -/

section Windows

variable {pn : ℕ}

theorem pdx_pageStart (hpn : pn < 2 ^ 20) : (pdx (pageStart pn)).toNat = pn / 1024 := by
  simp only [pdx, BitVec.extractLsb'_toNat, Nat.shiftRight_eq_div_pow, toNat_pageStart hpn]
  omega

theorem ptx_pageStart (hpn : pn < 2 ^ 20) : (ptx (pageStart pn)).toNat = pn % 1024 := by
  simp only [ptx, BitVec.extractLsb'_toNat, Nat.shiftRight_eq_div_pow, toNat_pageStart hpn]
  omega

theorem shiftLeft_page (pn : ℕ) : BitVec.ofNat 32 pn <<< 12 = pageStart pn := by
  apply BitVec.eq_of_toNat_eq
  rw [BitVec.toNat_shiftLeft, pageStart, BitVec.toNat_ofNat, BitVec.toNat_ofNat, Nat.shiftLeft_eq]
  omega

theorem uvptWord_eq (hpn : pn < 2 ^ 20) : uvptWord pn = uvptEntry (pageStart pn) := by
  have hconst : uvpt.toNat = 957 * 2 ^ 22 := by decide
  have hfour : (4 : Word).toNat = 4 := rfl
  apply BitVec.eq_of_toNat_eq
  rw [toNat_uvptEntry, toNat_pageStart hpn, uvptWord, BitVec.toNat_add, BitVec.toNat_mul,
    BitVec.toNat_ofNat, hconst, hfour]
  omega

/-- The words of the directory are the entries of the window for the window itself. -/
theorem uvpdWord_eq (hpn : pn < 2 ^ 20) :
    uvpdWord pn = uvptEntry (pageStart (957 * 1024 + pn / 1024)) := by
  have hconst : uvpd.toNat = 957 * 2 ^ 22 + 957 * 2 ^ 12 := by decide
  have hfour : (4 : Word).toNat = 4 := rfl
  apply BitVec.eq_of_toNat_eq
  rw [toNat_uvptEntry, toNat_pageStart (by omega), uvpdWord, BitVec.toNat_add, BitVec.toNat_mul,
    BitVec.toNat_ushiftRight, BitVec.toNat_ofNat, Nat.shiftRight_eq_div_pow, hconst, hfour]
  omega

variable (hwindow : m.word pd (pdx uvpt) = page2pa pd ||| pteP ||| pteU) (hpn : pn < 2 ^ 20)

include hwindow hpn in
theorem loadWord_uvptWord (hpde : m.word pd (pdx (pageStart pn)) &&& userRead = userRead) :
    m.loadWord pd (uvptWord pn) = some (m.mapping pd (pageStart pn)) := by
  have htable : m.word pd (pdx (pageStart pn)) ≠ 0 := by
    intro hzero
    rw [hzero] at hpde
    exact absurd hpde (by decide)
  rw [uvptWord_eq hpn, loadWord_uvptEntry hwindow, if_pos hpde, mapping_of_table htable]

include hwindow hpn in
theorem loadWord_uvpdWord :
    m.loadWord pd (uvpdWord pn) = some (m.word pd (pdx (pageStart pn))) := by
  have hpage : 957 * 1024 + pn / 1024 < 2 ^ 20 := by omega
  have hdir : pdx (pageStart (957 * 1024 + pn / 1024)) = pdx uvpt := by
    have hconst : (pdx uvpt).toNat = 957 := by decide
    apply BitVec.eq_of_toNat_eq
    rw [pdx_pageStart hpage, hconst]
    omega
  have hslot : ptx (pageStart (957 * 1024 + pn / 1024)) = pdx (pageStart pn) := by
    apply BitVec.eq_of_toNat_eq
    rw [ptx_pageStart hpage, pdx_pageStart hpn]
    omega
  have hself : pgnum (page2pa pd ||| pteP ||| pteU) = pd := pgnum_uvptPde pd
  have hbits : (page2pa pd ||| pteP ||| pteU) &&& userRead = userRead := by
    have hflags : (pteP ||| pteU) &&& userRead = userRead := by decide
    rw [BitVec.or_assoc, BitVec.and_or_distrib_right, page2pa_and (by decide), hflags]
    exact BitVec.zero_or
  rw [uvpdWord_eq hpn, loadWord_uvptEntry hwindow, hdir, hslot, hwindow, if_pos hbits, hself]

end Windows

/-- The test of `fork` on the two entries for a page. -/
theorem readable_iff : w &&& userRead = userRead ↔ ¬ (w &&& pteP = 0 ∨ w &&& pteU = 0) := by
  have hpresent : pteP = BitVec.twoPow 32 0 := by decide
  have huser : pteU = BitVec.twoPow 32 2 := by decide
  rw [userRead, BitVec.and_or_distrib_left, hpresent, huser, BitVec.and_twoPow, BitVec.and_twoPow]
  split <;> split <;> decide

end Memory

open Memory

/-! ## The permissions -/

/-- What `duppage` asks for. -/
def sharedPerm (pte : Word) : Word :=
  if pte &&& pteW ≠ 0 ∨ pte &&& pteCow ≠ 0 then dupPerm pte ||| pteCow else dupPerm pte

/-- The entry of the child for a page that its parent has. -/
def sharedPte (pte : Word) : Word :=
  page2pa (pgnum pte) ||| (pteP ||| pteU ||| sharedPerm pte) ||| pteP

/-- The entry of the parent afterwards. -/
def parentPte (pte : Word) : Word :=
  if pte &&& pteW ≠ 0 ∨ pte &&& pteCow ≠ 0 then sharedPte pte else pte

section Permissions

variable {w : Word}

theorem dupPerm_cases (w : Word) :
    dupPerm w = pteU ||| pteP ∨ dupPerm w = pteU ||| pteP ||| (ptePcd ||| ptePwt) := by
  unfold dupPerm
  simp only
  split
  · exact .inr rfl
  · exact .inl rfl

/-- The permission has no bit of an address and does not allow writing. -/
theorem sharedPerm_spec (w : Word) : (pteP ||| pteU ||| sharedPerm w).toNat < 4096 ∧
    (pteP ||| pteU ||| sharedPerm w) &&& pteW = 0 ∧
    (pteP ||| pteU ||| sharedPerm w) &&& userRead = userRead ∧
    ((pteP ||| pteU ||| sharedPerm w) &&& pteCow ≠ 0 ↔ w &&& pteW ≠ 0 ∨ w &&& pteCow ≠ 0) := by
  unfold sharedPerm
  split
  · rename_i hcow
    rcases dupPerm_cases w with hperm | hperm <;> rw [hperm]
    · exact ⟨by decide, by decide, by decide, iff_of_true (by decide) hcow⟩
    · exact ⟨by decide, by decide, by decide, iff_of_true (by decide) hcow⟩
  · rename_i hcow
    rcases dupPerm_cases w with hperm | hperm <;> rw [hperm]
    · exact ⟨by decide, by decide, by decide, iff_of_false (by decide) hcow⟩
    · exact ⟨by decide, by decide, by decide, iff_of_false (by decide) hcow⟩

theorem sharedPte_and {bits : Word} (hbits : bits.toNat < 4096) (hpresent : bits &&& pteP = 0) :
    sharedPte w &&& bits = (pteP ||| pteU ||| sharedPerm w) &&& bits := by
  have hnone : pteP &&& bits = 0 := by
    rw [BitVec.and_comm]
    exact hpresent
  rw [sharedPte, BitVec.and_or_distrib_right, BitVec.and_or_distrib_right, page2pa_and hbits, hnone]
  exact BitVec.or_zero.trans BitVec.zero_or

theorem pgnum_sharedPte : pgnum (sharedPte w) = pgnum w := by
  refine pgnum_entry ?_
  rw [pgnum_of_lt (sharedPerm_spec w).1]
  exact BitVec.zero_or

theorem sharedPte_read : sharedPte w &&& userRead = userRead := by
  have hpresent : pteP &&& userRead = pteP := by decide
  have hflags : userRead ||| pteP = userRead := by decide
  rw [sharedPte, BitVec.and_or_distrib_right, BitVec.and_or_distrib_right, page2pa_and (by decide),
    (sharedPerm_spec w).2.2.1, hpresent, BitVec.or_assoc, hflags]
  exact BitVec.zero_or

theorem sharedPte_write : sharedPte w &&& pteW = 0 :=
  (sharedPte_and (by decide) (by decide)).trans (sharedPerm_spec w).2.1

theorem sharedPte_cow : sharedPte w &&& pteCow ≠ 0 ↔ w &&& pteW ≠ 0 ∨ w &&& pteCow ≠ 0 := by
  rw [sharedPte_and (by decide) (by decide)]
  exact (sharedPerm_spec w).2.2.2

theorem pgnum_parentPte : pgnum (parentPte w) = pgnum w := by
  unfold parentPte
  split
  · exact pgnum_sharedPte
  · rfl

theorem parentPte_read (h : w &&& userRead = userRead) : parentPte w &&& userRead = userRead := by
  unfold parentPte
  split
  · exact sharedPte_read
  · exact h

theorem parentPte_write : parentPte w &&& pteW = 0 := by
  unfold parentPte
  split
  · exact sharedPte_write
  · rename_i hcow
    rw [not_or, not_not] at hcow
    exact hcow.1

theorem parentPte_cow : parentPte w &&& pteCow ≠ 0 ↔ w &&& pteW ≠ 0 ∨ w &&& pteCow ≠ 0 := by
  unfold parentPte
  split
  · exact sharedPte_cow
  · rename_i hcow
    refine iff_of_false ?_ hcow
    rw [not_or] at hcow
    exact hcow.2

end Permissions

end SistemasOperativos.Jos
