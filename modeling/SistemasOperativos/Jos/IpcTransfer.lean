import SistemasOperativos.Jos.Boot
import SistemasOperativos.Jos.Decomposition
import SistemasOperativos.Jos.PageInsert

/-!
# The page of a message

`sys_ipc_try_send` as a transfer that happens as a whole or not at all. The page is first replaced by
a fresh one at the receiver, and the lookup in between is of a page that may not be there, so the law
has exceptions: an unmapped page, the last free page, and a receiver that wants no page.
-/

namespace SistemasOperativos.Jos

open Library Library.Except Memory

variable {n : ℕ} {c : Fin n} {inp : Input} {k k' : Kernel n} {cur dst e : EnvPtr}
  {roots : Finset Ppn} {free rest : List Ppn} {other : Ppn → ℕ} {pd pp page : Ppn}
  {envid value va srcva perm w : Word}

/-- The pages are counted, the address spaces are trees, and every environment that exists has one.
A receiver can only ask for a page below `UTOP`. -/
structure Kernel.Accounted (k : Kernel n) (roots : Finset Ppn) (free : List Ppn)
    (other : Ppn → ℕ) : Prop where
  exact : k.memory.Exact roots free other
  forest : k.memory.Forest roots free other
  directory : ∀ e, (k.envs e).envStatus ≠ .free → ∃ pd ∈ roots, (k.envs e).envPgdir = some pd
  dstva : ∀ e, (k.envs e).envIpcDstva < utop

/-! ## The law -/

/-- Nothing happened to the receiver, to the counts and to the free list. -/
structure Kernel.Untouched (k k' : Kernel n) (receiver : Option EnvPtr) : Prop where
  receiver : ∀ e, receiver = some e → k'.envs e = k.envs e ∧ ∀ pd, (k.envs e).envPgdir = some pd →
    ∀ va, k'.memory.translation pd va = k.memory.translation pd va
  counts : ∀ p, (k'.memory.pages p).ppRef = (k.memory.pages p).ppRef
  free : k'.memory.pageFreeList = k.memory.pageFreeList

/-- The sender and the receiver have the page in common, with the flags that were asked for. -/
def Kernel.Shared (k' : Kernel n) (src dst : Option Ppn) (srcva dstva perm : Word) : Prop :=
  ∃ page srcpte dstpte, k'.memory.pageLookup src srcva = .ok (some (page, srcpte)) ∧
    k'.memory.pageLookup dst dstva = .ok (some (page, dstpte)) ∧
    k'.memory.readPte dstpte = page2pa page ||| perm ||| pteP

/-- The message of `cur` has arrived at `dst`. -/
structure Kernel.Transferred (k k' : Kernel n) (cur dst : EnvPtr) (value srcva perm : Word) : Prop where
  sender : (k'.envs dst).envIpcFrom = (k.envs cur).envId
  value : (k'.envs dst).envIpcValue = value
  recving : (k'.envs dst).envIpcRecving = false
  status : (k'.envs dst).envStatus = .runnable
  eax : (k'.envs dst).envTf.tfRegs.regEax = 0
  perm : if srcva < utop ∧ (k.envs dst).envIpcDstva ≠ 0 then
      (k'.envs dst).envIpcPerm = perm ||| pteU ||| pteP ∧
        k'.Shared (k.envs cur).envPgdir (k.envs dst).envPgdir srcva (k.envs dst).envIpcDstva
          (perm ||| pteU ||| pteP)
    else (k'.envs dst).envIpcPerm = 0

/-- `sys_ipc_try_send` is all or nothing. -/
structure Kernel.AllOrNothing (k : Kernel n) (c : Fin n) (inp : Input)
    (envid value srcva perm : Word) : Prop where
  unchanged : ∀ r k' receiver, k.sysIpcTrySend c inp envid value srcva perm = .ok (r, k') →
    k.envid2env c envid false = .ok receiver → r < 0 → k.Untouched k' receiver
  unmapped : ∀ cur dst, k.curenv c = some cur → k.envid2env c envid false = .ok (some dst) →
    (k.envs dst).envIpcRecving = true → srcva < utop →
    k.memory.pageLookup (k.envs cur).envPgdir srcva = .ok none →
      ∃ k', k.sysIpcTrySend c inp envid value srcva perm = .ok (-eInval, k')
  delivered : ∀ k' cur dst, k.sysIpcTrySend c inp envid value srcva perm = .ok (0, k') →
    k.curenv c = some cur → k.envid2env c envid false = .ok (some dst) →
      k.Transferred k' cur dst value srcva perm

/-! ## Where it holds -/

/-- The two tests of the entry of the page. -/
def refuses (w perm : Word) : Prop :=
  w ≠ 0 ∧ w &&& pteP = 0 ∨ perm &&& pteW ≠ 0 ∧ w &&& pteW = 0

instance : Decidable (refuses w perm) := inferInstanceAs (Decidable (_ ∨ _))

/-- There is one free page, and the receiver has no page table for the address it asked for. -/
def Kernel.LastPage (k : Kernel n) (dst : EnvPtr) : Prop :=
  (∃ p, k.memory.pageFreeList = some p ∧ (k.memory.pages p).ppLink = none) ∧
    ∀ pd, (k.envs dst).envPgdir = some pd → k.memory.word pd (pdx (k.envs dst).envIpcDstva) = 0

/-- A page of the sender: the entry is refused, or the receiver wants no page and has no permission
left over from an earlier message, or the permission is refused, or there is memory for the page. -/
def Kernel.SafeMapped (k : Kernel n) (dst : EnvPtr) (w perm : Word) : Prop :=
  refuses w perm ∨
    if (k.envs dst).envIpcDstva = 0 then (k.envs dst).envIpcPerm = 0
    else checkPerm (perm ||| pteU ||| pteP) none < 0 ∨ ¬ k.LastPage dst

/-- No page of the sender: what the uninitialised pointer leads to is refused, or the permission. -/
def Kernel.SafeUnmapped (k : Kernel n) (inp : Input) (dst : EnvPtr) (perm : Word) : Prop :=
  ∃ w, inp.stale = some w ∧ (refuses w perm ∨
    (k.envs dst).envIpcDstva ≠ 0 ∧ checkPerm (perm ||| pteU ||| pteP) none < 0)

/-- What the sender must have at `srcva`. -/
def Kernel.Safe (k : Kernel n) (inp : Input) (cur dst : EnvPtr) (srcva perm : Word) : Prop :=
  match k.memory.pageLookup (k.envs cur).envPgdir srcva with
  | .ok (some (_, pte)) => k.SafeMapped dst (k.memory.readPte pte) perm
  | _ => k.SafeUnmapped inp dst perm

/-! ## Mapping a page of another address space -/

section Map

variable {m : Memory} {pdS pdD : Ppn} {dstva : Word}

theorem and_pteW (w : Word) : w &&& pteW = 0 ∨ w &&& pteW = pteW := by
  have htwo : pteW = BitVec.twoPow 32 1 := by decide
  rw [htwo, BitVec.and_twoPow]
  split
  · exact .inr rfl
  · exact .inl rfl

/-- The test of `env_page_map` is the one that `sys_ipc_try_send` has made. -/
theorem write_allowed (h : ¬ (perm &&& pteW ≠ 0 ∧ w &&& pteW = 0)) :
    perm &&& pteW &&& ~~~(pteW &&& w) = 0 := by
  rw [BitVec.and_comm pteW w]
  rcases and_pteW perm with hperm | hperm
  · rw [hperm]
    exact BitVec.zero_and
  · rcases and_pteW w with hw | hw
    · refine absurd ⟨?_, hw⟩ h
      rw [hperm]
      decide
    · rw [hperm, hw]
      decide

/-- A page that was mapped with the same flags passes it too. -/
theorem write_allowed_again :
    perm &&& pteW &&& ~~~(pteW &&& (page2pa pp ||| perm ||| pteP)) = 0 := by
  apply write_allowed
  rintro ⟨hset, hclear⟩
  have hpage : page2pa pp &&& pteW = 0 := page2pa_and (by decide)
  have hpresent : pteP &&& pteW = 0 := by decide
  rw [BitVec.and_or_distrib_right, BitVec.and_or_distrib_right, hpage, hpresent] at hclear
  exact hset (by simpa using hclear)

/-- The memory after the page at `srcva` has been mapped at `dstva` as well. -/
def Memory.share (m : Memory) (pdS pdD : Ppn) (srcva dstva perm : Word) : Memory :=
  m.mapped pdD (pgnum (m.mapping pdS srcva)) dstva
    (page2pa (pgnum (m.mapping pdS srcva)) ||| perm ||| pteP)

variable (cur dst srcva perm dstva) in
theorem envPageMap_of_mapped (hm : k.memory.Exact roots free other) (hpdS : pdS ∈ roots)
    (hS : (k.envs cur).envPgdir = some pdS) (hpdD : pdD ∈ roots)
    (hD : (k.envs dst).envPgdir = some pdD) (hsrc : pdx srcva < pdx utop)
    (hdst : pdx dstva < pdx utop) (htable : k.memory.word pdD (pdx dstva) ≠ 0)
    (hmapped : k.memory.mapping pdS srcva ≠ 0)
    (hwrite : perm &&& pteW &&& ~~~(pteW &&& k.memory.mapping pdS srcva) = 0) :
    k.envPageMap cur srcva dst dstva perm =
      .ok (0, { k with memory := k.memory.share pdS pdD srcva dstva perm }) := by
  have hinsert := pageInsert_of_table (pgnum (k.memory.mapping pdS srcva)) perm hm
    hpdD hdst htable
  unfold Kernel.envPageMap
  simp only [hS, pageLookup_eq hm hpdS hsrc hmapped, bind, Except.bind, readPte_tableOf hmapped,
    hwrite, ne_eq, not_true_eq_false, if_false, hD, hinsert]
  rfl

variable (cur dst srcva perm dstva) in
theorem envPageMap_of_unmapped (hm : k.memory.Exact roots free other) (hpdS : pdS ∈ roots)
    (hS : (k.envs cur).envPgdir = some pdS) (hsrc : pdx srcva < pdx utop)
    (hmapped : k.memory.mapping pdS srcva = 0) :
    k.envPageMap cur srcva dst dstva perm = .ok (-eInval, k) := by
  unfold Kernel.envPageMap
  rw [hS, pageLookup_eq_none hm hpdS hsrc hmapped]
  rfl

/-- A page that the sender has is mapped at the receiver, which has the page table for it. -/
theorem shared_share (hm : m.Exact roots free other) (hf : m.Forest roots free other)
    (hpdS : pdS ∈ roots) (hpdD : pdD ∈ roots) (hsrc : pdx srcva < pdx utop)
    (hdst : pdx dstva < pdx utop) (htable : m.word pdD (pdx dstva) ≠ 0)
    (hmapped : m.mapping pdS srcva ≠ 0) (hperm : perm.toNat < 4096)
    (hk' : k'.memory = m.share pdS pdD srcva dstva perm) :
    k'.Shared (some pdS) (some pdD) srcva dstva perm := by
  unfold Memory.share at hk'
  set page := pgnum (m.mapping pdS srcva) with hpage
  have hentry := fun va' (hva' : pdx va' < pdx utop) pd' (hpd' : pd' ∈ roots) ↦
    mapped_entry page (w := page2pa page ||| perm ||| pteP)
      (r := (pd', pdx va', some (ptx va'))) hf hpdD hdst htable hpd' hva'
  have hroot := fun pd' (hpd' : pd' ∈ roots) ↦
    mapped_root page (w := page2pa page ||| perm ||| pteP) hf hpdD hdst htable hpd'
  have hbound := hm.target _ _ (refers_mapping hpdS hsrc hmapped)
  have hlookup : ∀ pd' ∈ roots, ∀ va', pdx va' < pdx utop →
      pgnum (k'.memory.mapping pd' va') = page → k'.memory.mapping pd' va' ≠ 0 →
      k'.memory.pageLookup (some pd') va' =
        .ok (some (page, (k'.memory.tableOf pd' va', ptx va'))) := by
    intro pd' hpd' va' hva' hnum hne
    have hpde := table_of_mapping hne
    have hnpages : k'.memory.npages = m.npages := by rw [hk', mapped_npages]
    rw [hk', hroot pd' hpd'] at hpde
    have htarget := hm.target _ _ (refers_tableOf hpd' hva' hpde)
    rw [← hnum]
    refine pageLookup_of_mapped hne ?_ ?_
    · rw [hnpages, hk', hroot pd' hpd']
      exact htarget
    · rw [hnum, hnpages]
      exact hbound
  have hdstva : k'.memory.mapping pdD dstva = page2pa page ||| perm ||| pteP := by
    rw [hk']
    exact mapped_mapping _ hf hpdD hdst htable
  have hsrcva : pgnum (k'.memory.mapping pdS srcva) = page ∧ k'.memory.mapping pdS srcva ≠ 0 := by
    have hsame := hentry srcva hsrc pdS hpdS
    rw [hk']
    change pgnum (Memory.entry _ (pdS, pdx srcva, some (ptx srcva))) = page ∧
      Memory.entry _ (pdS, pdx srcva, some (ptx srcva)) ≠ 0
    rw [hsame]
    split
    · exact ⟨pgnum_page2pa_or hperm, or_pteP_ne_zero _⟩
    · exact ⟨hpage.symm, hmapped⟩
  refine ⟨page, _, _, hlookup pdS hpdS srcva hsrc hsrcva.1 hsrcva.2, hlookup pdD hpdD dstva hdst ?_ ?_, ?_⟩
  · rw [hdstva]
    exact pgnum_page2pa_or hperm
  · rw [hdstva]
    exact or_pteP_ne_zero _
  · rw [readPte_tableOf, hdstva]
    rw [hdstva]
    exact or_pteP_ne_zero _

end Map

/-! ## The part for a page -/

namespace Kernel

section SendPage

variable (inp) in
theorem ipcSrcpte_of_lookup {pte : PtePtr}
    (h : k.memory.pageLookup (k.envs cur).envPgdir srcva = .ok (some (page, pte))) :
    k.ipcSrcpte inp cur srcva = .ok (k.memory.readPte pte) := by
  unfold ipcSrcpte
  rw [h]
  rfl

theorem ipcSrcpte_of_stale (h : k.memory.pageLookup (k.envs cur).envPgdir srcva = .ok none)
    (hw : inp.stale = some w) : k.ipcSrcpte inp cur srcva = .ok w := by
  unfold ipcSrcpte
  rw [h]
  simp only [bind, Except.bind, hw]
  rfl

variable (halign : srcva % pgsize = 0) (hw : k.ipcSrcpte inp cur srcva = .ok w)

include halign hw in
theorem ipcSendPage_of_refused (h : refuses w perm) :
    k.ipcSendPage inp cur dst srcva perm = .ok (-eInval, k) := by
  unfold ipcSendPage
  rw [if_neg (by simp [halign]), hw]
  simp only [bind, Except.bind]
  by_cases hpresent : w ≠ 0 ∧ w &&& pteP = 0
  · rw [if_pos hpresent]
    rfl
  · rw [if_neg hpresent, if_pos (h.resolve_left hpresent)]
    rfl

variable (hr : ¬ refuses w perm)

include halign hw hr in
theorem ipcSendPage_of_unwanted (hzero : (k.envs dst).envIpcDstva = 0) :
    k.ipcSendPage inp cur dst srcva perm = .ok (0, k) := by
  obtain ⟨hpresent, hwrite⟩ := not_or.mp hr
  unfold ipcSendPage
  rw [if_neg (by simp [halign]), hw]
  simp only [bind, Except.bind, if_neg hpresent, if_neg hwrite, if_pos hzero]
  rfl

variable {k₁ k₂ : Kernel n} {r : ℤ} (hne : (k.envs dst).envIpcDstva ≠ 0)

include halign hw hr hne in
theorem ipcSendPage_of_alloc_error (halloc : k.envPageAlloc dst (k.envs dst).envIpcDstva
      (perm ||| pteU ||| pteP) = .ok (r, k₁)) (hneg : r < 0) :
    k.ipcSendPage inp cur dst srcva perm = .ok (r, k₁) := by
  obtain ⟨hpresent, hwrite⟩ := not_or.mp hr
  unfold ipcSendPage
  rw [if_neg (by simp [halign]), hw]
  simp only [bind, Except.bind, if_neg hpresent, if_neg hwrite, if_neg hne, halloc, if_pos hneg]
  rfl

variable (halloc : k.envPageAlloc dst (k.envs dst).envIpcDstva (perm ||| pteU ||| pteP) =
  .ok (0, k₁))

include halign hw hr hne halloc in
theorem ipcSendPage_of_map_error (hmap : k₁.envPageMap cur srcva dst (k.envs dst).envIpcDstva
      (perm ||| pteU ||| pteP) = .ok (r, k₂)) (hneg : r < 0) :
    k.ipcSendPage inp cur dst srcva perm = .ok (r, k₂) := by
  obtain ⟨hpresent, hwrite⟩ := not_or.mp hr
  unfold ipcSendPage
  rw [if_neg (by simp [halign]), hw]
  simp only [bind, Except.bind, if_neg hpresent, if_neg hwrite, if_neg hne, halloc,
    Int.lt_irrefl, if_false, hmap, if_pos hneg]
  rfl

include halign hw hr hne halloc in
theorem ipcSendPage_of_map (hmap : k₁.envPageMap cur srcva dst (k.envs dst).envIpcDstva
      (perm ||| pteU ||| pteP) = .ok (0, k₂)) :
    k.ipcSendPage inp cur dst srcva perm =
      .ok (0, k₂.setEnv dst { k₂.envs dst with envIpcPerm := perm ||| pteU ||| pteP }) := by
  obtain ⟨hpresent, hwrite⟩ := not_or.mp hr
  unfold ipcSendPage
  rw [if_neg (by simp [halign]), hw]
  simp only [bind, Except.bind, if_neg hpresent, if_neg hwrite, if_neg hne, halloc,
    Int.lt_irrefl, if_false, hmap]
  rfl

end SendPage

/-! ## A fresh page at the receiver -/

section Alloc

variable {dstva : Word}

theorem envPageAlloc_of_bad_perm (h : checkPerm perm none < 0) :
    k.envPageAlloc dst dstva perm = .ok (-eInval, k) := by
  have hcases : checkPerm perm none = -eInval := by
    rcases checkPerm_cases perm none with hzero | hinval
    · rw [hzero] at h
      exact absurd h (by decide)
    · exact hinval
  unfold envPageAlloc
  simp only [hcases]
  rfl

variable (hperm : ¬ checkPerm perm none < 0)

include hperm in
theorem envPageAlloc_of_empty (h : k.memory.pageFreeList = none) :
    k.envPageAlloc dst dstva perm = .ok (-eNoMem, k) := by
  unfold envPageAlloc
  simp only [hperm, if_false, pageAlloc_of_empty h]
  rfl

include hperm in
theorem envPageAlloc_of_free (h : k.memory.pageFreeList = some pp)
    (hbound : pp.toNat < k.memory.npages) :
    k.envPageAlloc dst dstva perm = do
      let (r, memory) ← (k.memory.fresh pp).pageInsert (k.envs dst).envPgdir pp dstva perm
      return (r, { k with memory }) := by
  unfold envPageAlloc
  simp only [hperm, if_false, pageAlloc_of_free h hbound]
  rfl

theorem toNat_of_flags (h : perm &&& ~~~pteSyscall = 0) : perm.toNat < 4096 := by
  have hle : perm = perm &&& pteSyscall := by
    have hall : pteSyscall ||| ~~~pteSyscall = BitVec.allOnes 32 := by decide
    have hsplit : perm &&& (pteSyscall ||| ~~~pteSyscall) = perm := by
      rw [hall, BitVec.and_allOnes]
    rw [BitVec.and_or_distrib_left, h] at hsplit
    simpa using hsplit.symm
  rw [hle, BitVec.toNat_and]
  exact Nat.lt_of_le_of_lt Nat.and_le_right (by decide)

theorem toNat_of_checkPerm (h : ¬ checkPerm perm none < 0) : perm.toNat < 4096 := by
  refine toNat_of_flags ?_
  by_contra hne
  unfold checkPerm at h
  rw [if_pos hne] at h
  exact h (by decide)

end Alloc

/-! ## Each outcome -/

section Outcomes

variable (hk : k.Accounted roots free other)

variable (dst) in
include hk in
theorem Accounted.pdx_dstva : pdx (k.envs dst).envIpcDstva < pdx utop := pdx_lt_utop (hk.dstva dst)

/-- With enough memory a fresh page is mapped. -/
theorem Accounted.alloc_returns {dstva : Word} (hk : k.Accounted roots (pp :: rest) other)
    (hpd : pd ∈ roots) (hdst : (k.envs dst).envPgdir = some pd) (hva : pdx dstva < pdx utop)
    (hperm : ¬ checkPerm perm none < 0)
    (hroom : k.memory.word pd (pdx dstva) = 0 → rest ≠ []) :
    ∃ m free', FreshMapped k.memory m roots (pp :: rest) free' other pd pp dstva perm ∧
      k.envPageAlloc dst dstva perm = .ok (0, { k with memory := m }) := by
  have hword : (k.memory.fresh pp).word pd (pdx dstva) = k.memory.word pd (pdx dstva) := by
    rw [fresh_word, if_neg (hk.forest.root_ne hpd)]
  obtain ⟨m₀, free₀, htabled, hinsert⟩ := pageInsert_returns (hk.exact.fresh hk.forest)
    (hk.forest.fresh hk.exact) hpd hva (by rw [hword]; exact hroom)
  refine ⟨_, _, freshMapped hk.exact hk.forest hpd hva (toNat_of_checkPerm hperm) htabled, ?_⟩
  rw [envPageAlloc_of_free hperm hk.exact.pageFreeList_cons
    (hk.exact.bound pp List.mem_cons_self), hdst, hinsert]
  rfl

end Outcomes

/-! ## The call -/

section Call

variable {r : ℤ} {k₁ : Kernel n} {value : Word} (hcur : k.curenv c = some cur)
  (hdst : k.envid2env c envid false = .ok (some dst)) (hrecving : (k.envs dst).envIpcRecving = true)

theorem theCurenv_eq (hcur : k.curenv c = some cur) : k.theCurenv c = .ok cur := by
  unfold theCurenv
  rw [hcur]

theorem trySend_of_no_receiver (h : k.envid2env c envid false = .ok none) :
    k.sysIpcTrySend c inp envid value srcva perm = .ok (-eBadEnv, k) := by
  unfold sysIpcTrySend
  rw [h]
  rfl

include hdst in
theorem trySend_of_not_recving (h : (k.envs dst).envIpcRecving = false) :
    k.sysIpcTrySend c inp envid value srcva perm = .ok (-eIpcNotRecv, k) := by
  unfold sysIpcTrySend
  rw [hdst]
  simp only [bind, Except.bind, h, if_true]
  rfl

include hcur hdst hrecving in
theorem trySend_of_no_page (h : utop ≤ srcva) :
    k.sysIpcTrySend c inp envid value srcva perm =
      .ok (0, (k.setEnv dst { k.envs dst with envIpcPerm := 0 }).ipcDeliver cur dst value) := by
  unfold sysIpcTrySend
  rw [hdst]
  simp only [bind, Except.bind, hrecving, Bool.true_eq_false, if_false, theCurenv_eq hcur, if_pos h]
  rfl

variable (hsrc : srcva < utop)

include hcur hdst hrecving hsrc in
theorem trySend_of_page_error (h : k.ipcSendPage inp cur dst srcva perm = .ok (r, k₁))
    (hneg : r < 0) : k.sysIpcTrySend c inp envid value srcva perm = .ok (r, k₁) := by
  unfold sysIpcTrySend
  rw [hdst]
  simp only [bind, Except.bind, hrecving, Bool.true_eq_false, if_false, theCurenv_eq hcur,
    if_neg (BitVec.not_le.mpr hsrc), h, if_pos hneg]
  rfl

include hcur hdst hrecving hsrc in
theorem trySend_of_page (h : k.ipcSendPage inp cur dst srcva perm = .ok (0, k₁)) :
    k.sysIpcTrySend c inp envid value srcva perm = .ok (0, k₁.ipcDeliver cur dst value) := by
  unfold sysIpcTrySend
  rw [hdst]
  simp only [bind, Except.bind, hrecving, Bool.true_eq_false, if_false, theCurenv_eq hcur,
    if_neg (BitVec.not_le.mpr hsrc), h, Int.lt_irrefl]
  rfl

include hcur hdst hrecving hsrc in
theorem trySend_of_fault {f : Fault} (h : k.ipcSendPage inp cur dst srcva perm = .error f) :
    k.sysIpcTrySend c inp envid value srcva perm = .error f := by
  unfold sysIpcTrySend
  rw [hdst]
  simp only [bind, Except.bind, hrecving, Bool.true_eq_false, if_false, theCurenv_eq hcur,
    if_neg (BitVec.not_le.mpr hsrc), h]

theorem Untouched.refl (k : Kernel n) (receiver : Option EnvPtr) : k.Untouched k receiver where
  receiver _ _ := ⟨rfl, fun _ _ _ ↦ rfl⟩
  counts _ := rfl
  free := rfl

/-- What a delivery comes down to: the permission. -/
theorem Transferred.of_perm (henv : (k₁.envs dst).envIpcPerm = w) (hcur : k₁.envs cur = k.envs cur ∨
      k₁.envs cur = { k.envs cur with envIpcPerm := w })
    (hperm : if srcva < utop ∧ (k.envs dst).envIpcDstva ≠ 0 then
        w = perm ||| pteU ||| pteP ∧ (k₁.ipcDeliver cur dst value).Shared (k.envs cur).envPgdir
          (k.envs dst).envPgdir srcva (k.envs dst).envIpcDstva (perm ||| pteU ||| pteP)
      else w = 0) :
    k.Transferred (k₁.ipcDeliver cur dst value) cur dst value srcva perm := by
  have hsender : (k₁.envs cur).envId = (k.envs cur).envId := by
    rcases hcur with h | h
    · rw [h]
    · rw [h]
  constructor
  · simpa [ipcDeliver] using hsender
  · simp [ipcDeliver]
  · simp [ipcDeliver]
  · simp [ipcDeliver]
  · simp [ipcDeliver]
  · have hkept : ((k₁.ipcDeliver cur dst value).envs dst).envIpcPerm = w := by
      simpa [ipcDeliver] using henv
    rw [hkept]
    exact hperm

end Call

/-! ## A receiver that waits -/

/-- The receiver waits, and the address is one of a page. -/
structure Waits (k : Kernel n) (c : Fin n) (cur dst : EnvPtr) (envid srcva : Word) : Prop where
  current : k.curenv c = some cur
  live : (k.envs cur).envStatus ≠ .free
  receiver : k.envid2env c envid false = .ok (some dst)
  recving : (k.envs dst).envIpcRecving = true
  low : srcva < utop
  aligned : srcva % pgsize = 0

namespace Waits

variable {value : Word} (hk : k.Accounted roots free other) (h : k.Waits c cur dst envid srcva)
  (hw : k.ipcSrcpte inp cur srcva = .ok w)

include h in
theorem receiver_live : (k.envs dst).envStatus ≠ .free := by
  rcases envid2env_exists h.receiver with hcur | hlive
  · rw [h.current] at hcur
    rw [← Option.some.inj hcur]
    exact h.live
  · exact hlive

include h hw in
theorem of_refused (hr : refuses w perm) :
    k.sysIpcTrySend c inp envid value srcva perm = .ok (-eInval, k) :=
  trySend_of_page_error h.current h.receiver h.recving h.low
    (ipcSendPage_of_refused h.aligned hw hr) (by decide)

variable (hr : ¬ refuses w perm)

include h hw hr in
theorem of_unwanted (hzero : (k.envs dst).envIpcDstva = 0) :
    k.sysIpcTrySend c inp envid value srcva perm = .ok (0, k.ipcDeliver cur dst value) :=
  trySend_of_page h.current h.receiver h.recving h.low
    (ipcSendPage_of_unwanted h.aligned hw hr hzero)

variable (hne : (k.envs dst).envIpcDstva ≠ 0)

include h hw hr hne in
theorem of_bad_perm (hperm : checkPerm (perm ||| pteU ||| pteP) none < 0) :
    k.sysIpcTrySend c inp envid value srcva perm = .ok (-eInval, k) :=
  trySend_of_page_error h.current h.receiver h.recving h.low
    (ipcSendPage_of_alloc_error h.aligned hw hr hne (envPageAlloc_of_bad_perm hperm) (by decide))
    (by decide)

variable (hperm : ¬ checkPerm (perm ||| pteU ||| pteP) none < 0)

include h hw hr hne hperm in
theorem of_empty (hfree : k.memory.pageFreeList = none) :
    k.sysIpcTrySend c inp envid value srcva perm = .ok (-eNoMem, k) :=
  trySend_of_page_error h.current h.receiver h.recving h.low
    (ipcSendPage_of_alloc_error h.aligned hw hr hne (envPageAlloc_of_empty hperm hfree) (by decide))
    (by decide)

variable (value) in
include h hw hr hne hperm in
/-- The last free page is taken for the message, and then there is none for the page table. -/
theorem of_last (hk : k.Accounted roots [pp] other) (hpd : (k.envs dst).envPgdir = some pd)
    (hroot : pd ∈ roots) (hempty : k.memory.word pd (pdx (k.envs dst).envIpcDstva) = 0) :
    k.sysIpcTrySend c inp envid value srcva perm =
      .ok (-eNoMem, { k with memory := k.memory.fresh pp }) := by
  have hword : (k.memory.fresh pp).word pd (pdx (k.envs dst).envIpcDstva) = 0 := by
    rw [fresh_word, if_neg (hk.forest.root_ne hroot)]
    exact hempty
  have halloc : k.envPageAlloc dst (k.envs dst).envIpcDstva (perm ||| pteU ||| pteP) =
      .ok (-eNoMem, { k with memory := k.memory.fresh pp }) := by
    rw [envPageAlloc_of_free hperm hk.exact.pageFreeList_cons
      (hk.exact.bound pp List.mem_cons_self), hpd,
      pageInsert_of_full hword (hk.exact.fresh hk.forest).chain]
    rfl
  exact trySend_of_page_error h.current h.receiver h.recving h.low
    (ipcSendPage_of_alloc_error h.aligned hw hr hne halloc (by decide)) (by decide)

variable {pdS : Ppn} (hpdS : pdS ∈ roots) (hS : (k.envs cur).envPgdir = some pdS) (hpd : pd ∈ roots)
  (hD : (k.envs dst).envPgdir = some pd)

variable (value) in
include h hw hr hne hperm hpdS hS hpd hD in
/-- With enough memory a page that is mapped at the sender arrives. -/
theorem of_room (hk : k.Accounted roots (pp :: rest) other)
    (hroom : k.memory.word pd (pdx (k.envs dst).envIpcDstva) = 0 → rest ≠ [])
    (hmapped : k.memory.mapping pdS srcva = w) (hzero : w ≠ 0) :
    ∃ k', k.sysIpcTrySend c inp envid value srcva perm = .ok (0, k') ∧
      k.Transferred k' cur dst value srcva perm := by
  have hsrc := pdx_lt_utop h.low
  have hdst := hk.pdx_dstva dst
  obtain ⟨m, free', hfresh, halloc⟩ := hk.alloc_returns hpd hD hdst hperm hroom
  have hsender := hfresh.mapping pdS hpdS srcva hsrc
  have hwrite : ¬ (perm &&& pteW ≠ 0 ∧ w &&& pteW = 0) := fun hboth ↦ hr (.inr hboth)
  have hflag : (perm ||| pteU ||| pteP) &&& pteW = perm &&& pteW := by
    have hnone : (pteU ||| pteP) &&& pteW = 0 := by decide
    rw [BitVec.or_assoc, BitVec.and_or_distrib_right, hnone]
    exact BitVec.or_zero
  -- The entry of the sender is the old one, unless the sender is the receiver.
  have hentry : m.mapping pdS srcva ≠ 0 ∧
      (perm ||| pteU ||| pteP) &&& pteW &&& ~~~(pteW &&& m.mapping pdS srcva) = 0 := by
    rw [hsender]
    split
    · exact ⟨or_pteP_ne_zero _, write_allowed_again⟩
    · rw [hmapped]
      refine ⟨hzero, write_allowed ?_⟩
      rw [hflag]
      exact hwrite
  have hmap := envPageMap_of_mapped cur dst srcva _ _ (k := { k with memory := m }) hfresh.exact hpdS hS hpd
    hD hsrc hdst hfresh.table hentry.1 hentry.2
  refine ⟨_, trySend_of_page h.current h.receiver h.recving h.low
    (ipcSendPage_of_map h.aligned hw hr hne halloc hmap), ?_⟩
  refine Transferred.of_perm (w := perm ||| pteU ||| pteP) (by simp) ?_ ?_
  · by_cases hself : cur = dst
    · right
      rw [hself, setEnv_self]
    · left
      rw [setEnv_of_ne hself]
  · rw [if_pos ⟨h.low, hne⟩, hS, hD]
    exact ⟨rfl, shared_share hfresh.exact hfresh.forest hpdS hpd hsrc hdst hfresh.table hentry.1
      (toNat_of_checkPerm hperm) rfl⟩

variable (value) in
include h hw hr hne hperm hpdS hS hpd hD in
/-- A page that is not mapped at the sender is found to be missing when it is too late, or it is not
found to be missing at all. -/
theorem of_room_unmapped (hk : k.Accounted roots (pp :: rest) other)
    (hroom : k.memory.word pd (pdx (k.envs dst).envIpcDstva) = 0 → rest ≠ [])
    (hmapped : k.memory.mapping pdS srcva = 0) :
    ∃ r k', k.sysIpcTrySend c inp envid value srcva perm = .ok (r, k') ∧
      (r = -eInval → k'.memory.pageFreeList ≠ k.memory.pageFreeList) := by
  have hsrc := pdx_lt_utop h.low
  have hdst := hk.pdx_dstva dst
  obtain ⟨m, free', hfresh, halloc⟩ := hk.alloc_returns hpd hD hdst hperm hroom
  have hsender := hfresh.mapping pdS hpdS srcva hsrc
  by_cases hsame : SamePage pd pdS (k.envs dst).envIpcDstva srcva
  · rw [if_pos hsame] at hsender
    have hmap := envPageMap_of_mapped cur dst srcva (perm ||| pteU ||| pteP) _
      (k := { k with memory := m }) hfresh.exact hpdS hS hpd hD hsrc hdst hfresh.table
      (hsender ▸ or_pteP_ne_zero _) (hsender ▸ write_allowed_again)
    refine ⟨0, _, trySend_of_page h.current h.receiver h.recving h.low
      (ipcSendPage_of_map h.aligned hw hr hne halloc hmap), fun hzero ↦ ?_⟩
    exact absurd hzero (by decide)
  · rw [if_neg hsame, hmapped] at hsender
    have hmap := envPageMap_of_unmapped cur dst srcva (perm ||| pteU ||| pteP)
      (k.envs dst).envIpcDstva (k := { k with memory := m }) hfresh.exact hpdS hS hsrc hsender
    exact ⟨_, _, trySend_of_page_error h.current h.receiver h.recving h.low
      (ipcSendPage_of_map_error h.aligned hw hr hne halloc hmap (by decide)) (by decide),
      fun _ ↦ hfresh.list⟩

omit hpdS hS hpd hD hperm hne hr hw in
include hk h in
/-- What is found at `srcva`, with the page directories of the two environments. -/
theorem found : ∃ pdS ∈ roots, ∃ pd ∈ roots, (k.envs cur).envPgdir = some pdS ∧
    (k.envs dst).envPgdir = some pd ∧
    (k.memory.mapping pdS srcva = 0 ∧
        k.memory.pageLookup (k.envs cur).envPgdir srcva = .ok none ∨
      k.memory.mapping pdS srcva ≠ 0 ∧ ∃ page pte,
        k.memory.pageLookup (k.envs cur).envPgdir srcva = .ok (some (page, pte)) ∧
          k.memory.readPte pte = k.memory.mapping pdS srcva) := by
  obtain ⟨pdS, hpdS, hS⟩ := hk.directory cur h.live
  obtain ⟨pd, hpd, hD⟩ := hk.directory dst h.receiver_live
  have hsrc := pdx_lt_utop h.low
  refine ⟨pdS, hpdS, pd, hpd, hS, hD, ?_⟩
  rw [hS]
  by_cases hmapped : k.memory.mapping pdS srcva = 0
  · exact .inl ⟨hmapped, pageLookup_eq_none hk.exact hpdS hsrc hmapped⟩
  · exact .inr ⟨hmapped, _, _, pageLookup_eq hk.exact hpdS hsrc hmapped, readPte_tableOf hmapped⟩

variable (value) in
omit hpdS hS hpd hD hperm hne hr hw in
include hk h in
/-- Where the condition holds, the call is all or nothing. -/
theorem of_safe (hsafe : k.Safe inp cur dst srcva perm) :
    ∃ r k', k.sysIpcTrySend c inp envid value srcva perm = .ok (r, k') ∧
      (r < 0 ∧ k' = k ∨ r = 0 ∧ k.Transferred k' cur dst value srcva perm) ∧
      (k.memory.pageLookup (k.envs cur).envPgdir srcva = .ok none → r = -eInval) := by
  have hinval : (-eInval : ℤ) < 0 := by decide
  obtain ⟨pdS, hpdS, pd, hpd, hS, hD, ⟨hmapped, hlookup⟩ | ⟨hmapped, page, pte, hlookup, hread⟩⟩ :=
    h.found hk
  · unfold Safe at hsafe
    rw [hlookup] at hsafe
    obtain ⟨w, hstale, hr | ⟨hne, hperm⟩⟩ := hsafe
    · exact ⟨_, _, h.of_refused (ipcSrcpte_of_stale hlookup hstale) hr, .inl ⟨hinval, rfl⟩,
        fun _ ↦ rfl⟩
    · have hw := ipcSrcpte_of_stale hlookup hstale
      by_cases hr : refuses w perm
      · exact ⟨_, _, h.of_refused hw hr, .inl ⟨hinval, rfl⟩, fun _ ↦ rfl⟩
      · exact ⟨_, _, h.of_bad_perm hw hr hne hperm, .inl ⟨hinval, rfl⟩, fun _ ↦ rfl⟩
  · have hw := ipcSrcpte_of_lookup inp hlookup
    have hnot (r : ℤ) : k.memory.pageLookup (k.envs cur).envPgdir srcva = .ok none → r = -eInval := by
      rw [hlookup]
      intro hnone
      cases hnone
    unfold Safe at hsafe
    rw [hlookup] at hsafe
    rw [hread] at hw
    change k.SafeMapped dst (k.memory.readPte pte) perm at hsafe
    rw [hread] at hsafe
    by_cases hr : refuses (k.memory.mapping pdS srcva) perm
    · exact ⟨_, _, h.of_refused hw hr, .inl ⟨hinval, rfl⟩, fun _ ↦ rfl⟩
    have hsafe := hsafe.resolve_left hr
    by_cases hne : (k.envs dst).envIpcDstva = 0
    · rw [if_pos hne] at hsafe
      refine ⟨_, _, h.of_unwanted hw hr hne, .inr ⟨rfl, ?_⟩, hnot _⟩
      refine Transferred.of_perm hsafe (.inl rfl) ?_
      rw [if_neg fun hboth ↦ hboth.2 hne]
    rw [if_neg hne] at hsafe
    by_cases hperm : checkPerm (perm ||| pteU ||| pteP) none < 0
    · exact ⟨_, _, h.of_bad_perm hw hr hne hperm, .inl ⟨hinval, rfl⟩, fun _ ↦ rfl⟩
    have hlast := hsafe.resolve_left hperm
    cases free with
    | nil =>
      exact ⟨_, _, h.of_empty hw hr hne hperm hk.exact.chain, .inl ⟨by decide, rfl⟩, hnot _⟩
    | cons pp rest =>
      have hroom : k.memory.word pd (pdx (k.envs dst).envIpcDstva) = 0 → rest ≠ [] := by
        rintro hempty rfl
        refine hlast ⟨⟨pp, hk.exact.pageFreeList_cons, hk.exact.chain.2⟩, ?_⟩
        intro pd' hpd'
        rw [hD] at hpd'
        rw [← Option.some.inj hpd']
        exact hempty
      obtain ⟨k', hcall, hdelivered⟩ :=
        h.of_room value hw hr hne hperm hpdS hS hpd hD hk hroom rfl hmapped
      exact ⟨_, _, hcall, .inr ⟨rfl, hdelivered⟩, hnot _⟩

omit hpdS hS hpd hD hperm hne hr hw in
include hk h in
/-- Where it does not hold, the call is not all or nothing. -/
theorem safe_of_allOrNothing (hall : k.AllOrNothing c inp envid value srcva perm) :
    k.Safe inp cur dst srcva perm := by
  obtain ⟨pdS, hpdS, pd, hpd, hS, hD, ⟨hmapped, hlookup⟩ | ⟨hmapped, page, pte, hlookup, hread⟩⟩ :=
    h.found hk
  · unfold Safe
    rw [hlookup]
    obtain ⟨k', hcall⟩ := hall.unmapped cur dst h.current h.receiver h.recving h.low hlookup
    have hfree := (hall.unchanged _ _ _ hcall h.receiver (by decide)).free
    cases hstale : inp.stale with
    | none =>
      have hpanic : k.ipcSendPage inp cur dst srcva perm = .error .panic := by
        unfold ipcSendPage ipcSrcpte
        rw [if_neg (by simp [h.aligned]), hlookup]
        simp only [bind, Except.bind, hstale]
        rfl
      rw [trySend_of_fault h.current h.receiver h.recving h.low hpanic] at hcall
      cases hcall
    | some w =>
      have hw := ipcSrcpte_of_stale hlookup hstale
      refine ⟨w, hstale, ?_⟩
      by_contra hno
      obtain ⟨hr, hno⟩ := not_or.mp hno
      by_cases hne : (k.envs dst).envIpcDstva = 0
      · rw [h.of_unwanted hw hr hne] at hcall
        exact absurd (Prod.mk.inj (Except.ok.inj hcall)).1 (by decide)
      have hperm : ¬ checkPerm (perm ||| pteU ||| pteP) none < 0 := fun hneg ↦ hno ⟨hne, hneg⟩
      cases free with
      | nil =>
        rw [h.of_empty hw hr hne hperm hk.exact.chain] at hcall
        exact absurd (Prod.mk.inj (Except.ok.inj hcall)).1 (by decide)
      | cons pp rest =>
        by_cases hroom : k.memory.word pd (pdx (k.envs dst).envIpcDstva) = 0 → rest ≠ []
        · obtain ⟨r, k'', hcall', hlist⟩ :=
            h.of_room_unmapped value hw hr hne hperm hpdS hS hpd hD hk hroom hmapped
          rw [hcall'] at hcall
          obtain ⟨rfl, rfl⟩ := Prod.mk.inj (Except.ok.inj hcall)
          exact hlist rfl hfree
        · rw [Classical.not_imp, not_not] at hroom
          obtain ⟨hempty, rfl⟩ := hroom
          rw [h.of_last _ hw hr hne hperm hk hD hpd hempty] at hcall
          exact absurd (Prod.mk.inj (Except.ok.inj hcall)).1 (by decide)
  · have hw := ipcSrcpte_of_lookup inp hlookup
    unfold Safe
    rw [hlookup]
    rw [hread] at hw
    change k.SafeMapped dst (k.memory.readPte pte) perm
    rw [hread]
    by_contra hno
    obtain ⟨hr, hno⟩ := not_or.mp hno
    by_cases hne : (k.envs dst).envIpcDstva = 0
    · rw [if_pos hne] at hno
      have hperm := (hall.delivered _ cur dst (h.of_unwanted hw hr hne) h.current h.receiver).perm
      rw [if_neg fun hboth ↦ hboth.2 hne] at hperm
      exact hno (by simpa [ipcDeliver] using hperm)
    · rw [if_neg hne, not_or, not_not] at hno
      obtain ⟨hperm, ⟨p, hp, hlink⟩, hempty⟩ := hno
      obtain ⟨rest, rfl⟩ := hk.exact.free_of_pageFreeList hp
      have hrest : rest = [] := by
        have hchain := hk.exact.chain.2
        simp only [hlink] at hchain
        exact hchain.of_none
      subst hrest
      have hcall := h.of_last value hw hr hne hperm hk hD hpd (hempty pd hD)
      have hfree := (hall.unchanged _ _ _ hcall h.receiver (by decide)).free
      rw [hp] at hfree
      exact absurd (hlink.symm.trans hfree) (by simp)

end Waits

end Kernel

open Kernel

/-- `sys_ipc_try_send` is all or nothing if and only if, whenever a receiver waits and the address is
one of a page, the page of the sender and the memory allow it. -/
theorem ipc_allOrNothing_iff {value : Word} (hk : k.Accounted roots free other)
    (hcur : k.curenv c = some cur) (hlive : (k.envs cur).envStatus ≠ .free) :
    k.AllOrNothing c inp envid value srcva perm ↔
      ∀ dst, k.envid2env c envid false = .ok (some dst) → (k.envs dst).envIpcRecving = true →
        srcva < utop → srcva % pgsize = 0 → k.Safe inp cur dst srcva perm := by
  constructor
  · intro hall dst hdst hrecving hlow haligned
    exact Waits.safe_of_allOrNothing hk ⟨hcur, hlive, hdst, hrecving, hlow, haligned⟩ hall
  intro hsafe
  have houtcome : ∀ dst, k.envid2env c envid false = .ok (some dst) →
      ∃ r k', k.sysIpcTrySend c inp envid value srcva perm = .ok (r, k') ∧
        (r < 0 ∧ k' = k ∨ r = 0 ∧ k.Transferred k' cur dst value srcva perm) ∧
        ((k.envs dst).envIpcRecving = true → srcva < utop →
          k.memory.pageLookup (k.envs cur).envPgdir srcva = .ok none → r = -eInval) := by
    intro dst hdst
    by_cases hrecving : (k.envs dst).envIpcRecving = true
    · by_cases hlow : srcva < utop
      · by_cases haligned : srcva % pgsize = 0
        · obtain ⟨r, k', hcall, hor, hnone⟩ :=
            Waits.of_safe value hk ⟨hcur, hlive, hdst, hrecving, hlow, haligned⟩
              (hsafe dst hdst hrecving hlow haligned)
          exact ⟨r, k', hcall, hor, fun _ _ ↦ hnone⟩
        · have hpage : k.ipcSendPage inp cur dst srcva perm = .ok (-eInval, k) := if_pos haligned
          exact ⟨_, _, trySend_of_page_error hcur hdst hrecving hlow hpage (by decide),
            .inl ⟨by decide, rfl⟩, fun _ _ _ ↦ rfl⟩
      · refine ⟨_, _, trySend_of_no_page hcur hdst hrecving (BitVec.not_lt.mp hlow),
          .inr ⟨rfl, ?_⟩, fun _ h ↦ absurd h hlow⟩
        refine Transferred.of_perm (w := 0) (by simp) ?_ ?_
        · by_cases hself : cur = dst
          · right
            rw [hself, setEnv_self]
          · left
            rw [setEnv_of_ne hself]
        · rw [if_neg fun h ↦ hlow h.1]
    · exact ⟨_, _, trySend_of_not_recving hdst (Bool.not_eq_true _ ▸ hrecving),
        .inl ⟨by decide, rfl⟩, fun h ↦ absurd h hrecving⟩
  constructor
  · intro r k' receiver hcall hreceiver hneg
    cases receiver with
    | none =>
      rw [trySend_of_no_receiver hreceiver] at hcall
      obtain ⟨-, rfl⟩ := Prod.mk.inj (Except.ok.inj hcall)
      exact Untouched.refl k none
    | some dst =>
      obtain ⟨r', k'', hcall', hor, -⟩ := houtcome dst hreceiver
      rw [hcall] at hcall'
      obtain ⟨rfl, rfl⟩ := Prod.mk.inj (Except.ok.inj hcall')
      rcases hor with ⟨-, rfl⟩ | ⟨rfl, -⟩
      · exact Untouched.refl _ _
      · exact absurd hneg (Int.lt_irrefl 0)
  · intro cur' dst hcur' hdst hrecving hlow hnone
    rw [hcur] at hcur'
    obtain rfl := Option.some.inj hcur'
    obtain ⟨r, k', hcall, -, hr⟩ := houtcome dst hdst
    rw [hr hrecving hlow hnone] at hcall
    exact ⟨k', hcall⟩
  · intro k' cur' dst hcall hcur' hdst
    rw [hcur] at hcur'
    obtain rfl := Option.some.inj hcur'
    obtain ⟨r, k'', hcall', hor, -⟩ := houtcome dst hdst
    rw [hcall] at hcall'
    obtain ⟨rfl, rfl⟩ := Prod.mk.inj (Except.ok.inj hcall')
    exact hor.elim (fun h ↦ absurd h.1 (Int.lt_irrefl 0)) And.right

/-- An environment that is alone: there is nobody to send to. -/
def lonelyKernel : Kernel 1 where
  memory := selfMapped
  envs e := if e = 0 then
    { Env.zero with envId := 0x1000, envStatus := .running, envPgdir := some 1 } else Env.zero
  envFreeList := none
  cpus _ := ⟨.started, some 0, 1⟩
  boostTimeSlices := 0
  totalSchedCalls := 0

theorem lonelyKernel_accounted :
    lonelyKernel.Accounted {1} [3] fun p ↦ if p = 3 then 0 else 1 where
  exact := selfMapped_exact
  forest := selfMapped_forest
  directory e he := by
    by_cases hzero : e = 0
    · subst hzero
      exact ⟨1, Finset.mem_singleton_self 1, rfl⟩
    · exact absurd (congrArg Env.envStatus (if_neg hzero)) he
  dstva e := by
    by_cases hzero : e = 0
    · subst hzero
      decide
    · have henv : lonelyKernel.envs e = Env.zero := if_neg hzero
      rw [henv]
      decide

theorem ipc_allOrNothing_lonely :
    lonelyKernel.AllOrNothing 0 ⟨0, none⟩ 0x1001 5 0x1000 7 := by
  refine (ipc_allOrNothing_iff lonelyKernel_accounted rfl (by decide)).mpr ?_
  intro dst hdst
  have hnone : lonelyKernel.envid2env 0 0x1001 false = .ok none := rfl
  rw [hnone] at hdst
  cases hdst

/-- The receiver gets a page, and then it waits for a message without one. -/
def leftoverEvents : List (Event 1) :=
  [.create 0 smallBinary, .start 0, .call 0 7 0 0 0 0 0, .call 0 4 0 0x1000 7 0 0,
    .call 0 8 0x1001 2 0 0 0, .call 0 10 0 0 0 0 0, .call 0 12 0x1000 0 0 0 0,
    .call 0 11 0x1001 5 0x1000 7 0, .call 0 10 0 0 0 0 0, .call 0 12 0 0 0 0 0]

/-- The permission of the first page is still there after a message that brings none. -/
theorem ipc_leaves_old_permission :
    (smallKernel 1 20).Booted (smallFree 20) ∧
    ∃ k, Run (Kernel.Step .rr) (smallKernel 1 20) leftoverEvents k ∧ k.curenv 0 = some 0 ∧
      ¬ k.AllOrNothing 0 ⟨0, none⟩ 0x1001 6 0x1000 7 := by
  refine ⟨smallKernel_booted 1 20 (by decide), ?_⟩
  have hresult : (((smallKernel 1 20).after .rr leftoverEvents).any fun k ↦
      k.curenv 0 == some 0 && ((k.envs 1).envStatus == .notRunnable &&
        ((k.envs 1).envId == 0x1001 && ((k.envs 1).envIpcDstva == 0 &&
          match k.sysIpcTrySend 0 ⟨0, none⟩ 0x1001 6 0x1000 7 with
          | .ok (r, k') => r == 0 && (k'.envs 1).envIpcPerm == 7
          | .error _ => false)))) = true := by
    decide +kernel
  obtain ⟨k, hrun, hcheck⟩ := Kernel.run_of_any hresult
  simp only [Bool.and_eq_true, beq_iff_eq] at hcheck
  obtain ⟨hcur, hstatus, hid, hdstva, hcall⟩ := hcheck
  refine ⟨k, hrun, hcur, fun hall ↦ ?_⟩
  split at hcall
  · rename_i r k' hsend
    simp only [Bool.and_eq_true, beq_iff_eq] at hcall
    obtain ⟨rfl, hperm⟩ := hcall
    have hlive : (k.envs (envx 0x1001)).envStatus ≠ .free := by
      intro hfree
      exact absurd (hstatus.symm.trans hfree) (by decide)
    have hdelivered := (hall.delivered k' 0 1 hsend hcur
      (envid2env_live (by decide) hlive hid)).perm
    rw [if_neg fun h ↦ h.2 hdstva, hperm] at hdelivered
    exact absurd hdelivered (by decide)
  · cases hcall

end SistemasOperativos.Jos
