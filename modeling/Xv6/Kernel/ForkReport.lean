import Xv6.Kernel.Fork
import Xv6.Kernel.NoOverlap

/-! # The report of mappings after a fork

`forkHelper` inserts every mapping again into the table that parent and child share, so
the reports after a fork are longer than the one before it unless there is no mapping.
-/
namespace Xv6.Kernel
open Wmap Program
variable {s s₀ s₁ : Ctx} {infos l : List Info} {child : Proc}

def Info.range (i : Info) : Word × Word := (i.addr,i.length)

def ReportsAgain (infos : List Info) (s : Ctx) : Prop :=
  ∃ l s', sysGetwmapinfo s = .ok l s' ∧ (l.map Info.range).Perm (infos.map Info.range)

/-- The table after a call of `getwmapinfo` is initialised, and its entries were reported. -/
theorem report_entries (hw : WF s.tab) (h : sysGetwmapinfo s = .ok infos s₀) :
    WF s₀.tab ∧ s₀.tab.hashInit ≠ -1 ∧ infos = s₀.tab.entries.map Entry.info := by
  obtain ⟨hinfo,-⟩ := sysGetwmapinfo_ok h
  by_cases hinit : s.tab.hashInit = -1
  · rw [getwmapinfo,if_pos hinit] at hinfo
    injection hinfo with hpair
    injection hpair with hnil htab
    have hlayout := layout_init s.tab 0
    have hentries : s₀.tab.entries = [] := by
      rw [← htab,Table.entries,List.flatMap_eq_nil_iff]
      exact fun i _ => bucket_of_empty rfl
    refine ⟨htab ▸ hlayout.wf,?_,?_⟩
    · rw [← htab]
      exact (by decide : (0 : ℤ) ≠ -1)
    · rw [hentries,← hnil]
      rfl
  · rw [getwmapinfo_eq hw hinit] at hinfo
    split at hinfo
    · injection hinfo with hpair
      injection hpair with hl htab
      exact ⟨htab ▸ hw,htab ▸ hinit,by rw [← hl,htab]⟩
    · cases hinfo

theorem reportsAgain_iff (hw : WF s.tab) (hinit : s.tab.hashInit ≠ -1) : ReportsAgain infos s ↔
    s.tab.entries.length ≤ MAX_WMMAP_INFO ∧
      ((s.tab.entries.map Entry.info).map Info.range).Perm (infos.map Info.range) := by
  constructor
  · rintro ⟨l,s',h,hperm⟩
    obtain ⟨hinfo,-⟩ := sysGetwmapinfo_ok h
    rw [getwmapinfo_eq hw hinit] at hinfo
    split at hinfo
    · rename_i hlen
      injection hinfo with hpair
      injection hpair with hl htab
      exact ⟨hlen,hl ▸ hperm⟩
    · cases hinfo
  · rintro ⟨hlen,hperm⟩
    refine ⟨s.tab.entries.map Entry.info,s,?_,hperm⟩
    have hinfo : onTable getwmapinfo s = .ok (s.tab.entries.map Entry.info,s.tab) s := by
      rw [onTable_apply,getwmapinfo_eq hw hinit,if_pos hlen]
    unfold sysGetwmapinfo
    rw [bind_of_ok hinfo]
    rfl

/-- After a fork both processes get the report from before it exactly when it was empty. -/
theorem fork_report (hr : Reachable s.tab) (hinfo : sysGetwmapinfo s = .ok infos s₀)
    (hfork : fork s₀ = .ok (some child) s₁) :
    ReportsAgain infos s₁ ∧ ReportsAgain infos { s₁ with cur := child } ↔ infos = [] := by
  obtain ⟨hw,hinit,rfl⟩ := report_entries hr.wf hinfo
  have hhelper := (fork_ok hfork).tab
  obtain ⟨hcopied,hgrows⟩ := forkHelper_copied hw hhelper
  have hinit₁ : s₁.tab.hashInit ≠ -1 := hcopied.hashInit ▸ hinit
  have hchild : ReportsAgain (s₀.tab.entries.map Entry.info) { s₁ with cur := child } ↔
      ReportsAgain (s₀.tab.entries.map Entry.info) s₁ := by
    rw [reportsAgain_iff hcopied.wf hinit₁,reportsAgain_iff (s := { s₁ with cur := child }) hcopied.wf hinit₁]
  rw [hchild,and_self,reportsAgain_iff hcopied.wf hinit₁,List.map_eq_nil_iff]
  constructor
  · rintro ⟨-,hperm⟩
    by_contra hne
    have hlen := hperm.length_eq
    simp only [List.length_map] at hlen
    have := hgrows hne
    omega
  · intro hnil
    rw [forkHelper_empty hnil] at hhelper
    injection hhelper with htab
    rw [← htab,hnil]
    exact ⟨Nat.zero_le _,.refl _⟩

section Instances

def roomyCtx : Ctx := { firstCtx with mem := { firstCtx.mem with freelist := List.range' 0x400 2000 } }

def mappedCtx : Ctx := { roomyCtx with tab := { initHashTable .boot with
  hashInit := 1
  table := Function.update (initHashTable .boot).table 7 ⟨⟨0x60000000,1,4096,0,13,0⟩,none⟩
  mostRecent := some (.slot 7) } }

theorem wmap_roomyCtx : (Call.wmap 0x60000000 4096 13 0).run roomyCtx = .ok (.value 0x60000000) mappedCtx := rfl

theorem firstCtx_pages (x : Word) (hx : x.toNat < firstCtx.cur.sz.toNat) (hpage : x.toNat % 4096 = 0) :
    firstCtx.cur.pgdir.present x := by
  have hzero : x = 0 := by
    apply BitVec.eq_of_toNat_eq
    change x.toNat < 4096 at hx
    change x.toNat = 0
    omega
  rw [hzero]
  exact ⟨⟨0x302,true,true,true⟩,rfl,rfl⟩

theorem firstCtx_counted : Counted firstCtx := by
  intro fd f hfd
  cases hfd

theorem fork_roomy {t t' : Table} (h : forkHelper t = .ok t') :
    ∃ child s', fork { roomyCtx with tab := t } = .ok (some child) s' := by
  have hsz : roomyCtx.cur.sz.toNat = 4096 := rfl
  have hfree : roomyCtx.mem.freelist.length = 2000 := List.length_range'
  obtain ⟨child,s',hfork,-⟩ := fork_succeeds (s := { roomyCtx with tab := t }) (c := 0)
    (by decide : roomyCtx.unused ≠ 0) (by change roomyCtx.cur.sz.toNat ≤ 2^31; omega) firstCtx_pages
    (by change 1026+((roomyCtx.cur.sz.toNat+4095)/4096+0) ≤ roomyCtx.mem.freelist.length; omega)
    firstCtx_counted h
  exact ⟨child,s',hfork⟩

/-- A single mapping is in the table three times after a fork. -/
theorem fork_report_repeats : ∃ s infos s₀ child s₁,
    (Call.wmap 0x60000000 4096 13 0).run roomyCtx = .ok (.value 0x60000000) s ∧
    sysGetwmapinfo s = .ok infos s₀ ∧ infos = [⟨0x60000000,4096,0⟩] ∧ fork s₀ = .ok (some child) s₁ ∧
    s₁.tab.entries.length = 3 ∧ ¬ ReportsAgain infos s₁ := by
  obtain ⟨t,ht,hlen⟩ : ∃ t, forkHelper mappedCtx.tab = .ok t ∧ t.entries.length = 3 :=
    ⟨_,rfl,by decide +kernel⟩
  obtain ⟨child,s₁,hfork⟩ := fork_roomy ht
  have htab := (fork_ok hfork).tab
  change forkHelper mappedCtx.tab = .ok s₁.tab at htab
  rw [ht] at htab
  injection htab with htab
  refine ⟨mappedCtx,_,mappedCtx,child,s₁,wmap_roomyCtx,rfl,rfl,hfork,htab ▸ hlen,?_⟩
  rintro ⟨l,s',hinfo,hperm⟩
  have hr : Reachable mappedCtx.tab := .call (s := roomyCtx) .boot wmap_roomyCtx
  have hr₁ : Reachable s₁.tab := .fork (s := mappedCtx) hr hfork
  have hcopied := (forkHelper_copied hr.wf ht).1
  have hinit : s₁.tab.hashInit ≠ -1 := by
    rw [← htab,hcopied.hashInit]
    decide
  obtain ⟨-,hperm⟩ := (reportsAgain_iff hr₁.wf hinit).mp ⟨l,s',hinfo,hperm⟩
  have := hperm.length_eq
  rw [List.length_map,List.length_map,← htab,hlen] at this
  cases this

theorem fork_report_empty : ∃ s₀ child s₁, sysGetwmapinfo roomyCtx = .ok [] s₀ ∧
    fork s₀ = .ok (some child) s₁ ∧ ReportsAgain [] s₁ ∧ ReportsAgain [] { s₁ with cur := child } := by
  obtain ⟨child,s₁,hfork⟩ := fork_roomy (t := { initHashTable .boot with hashInit := 0 }) rfl
  exact ⟨_,child,s₁,rfl,hfork,(fork_report (s := roomyCtx) .boot rfl hfork).mpr rfl⟩

end Instances
end Xv6.Kernel
