import Mathlib.Data.Nat.Basic
import Shigure.Lib.KeyList
import Shigure.Lib.Span

/-!
# Free and live spans of an area

What an allocator keeps about an area `[lo, hi)`: the free spans, sorted and no
two of them touching, and the live spans, disjoint from each other and from the
free ones. `Tiling` is kept by cutting a live span out of a free one, by growing
the area, and by giving a live span back and merging it with its neighbours.
`Covered` adds that nothing of the area is lost.
-/

namespace Shigure

structure Tiling (lo hi : Nat) (free live : List Span) : Prop where
  sorted : Sorted Span.base free
  gap : ∀ a ∈ free, ∀ b ∈ free, a.base < b.base → a.stop < b.base
  pos : ∀ f ∈ free, 0 < f.size
  freeIn : ∀ f ∈ free, f.Within lo hi
  liveIn : ∀ b ∈ live, b.Within lo hi
  disjoint : live.Pairwise Span.Disjoint
  apart : ∀ b ∈ live, ∀ f ∈ free, b.Disjoint f

/-- Every unit of the area is live, free or a known leftover. -/
def Covered (lo hi : Nat) (free live rest : List Span) : Prop :=
  ∀ x, lo ≤ x → x < hi → (∃ b ∈ live, x ∈ b) ∨ (∃ f ∈ free, x ∈ f) ∨ ∃ g ∈ rest, x ∈ g

namespace Tiling

section
variable {lo hi hi' : Nat} {free free' live rest : List Span} {a b c f g : Span}
  {left right remains : Option Span}

theorem cases (h : Tiling lo hi free live) (ha : a ∈ free) (hb : b ∈ free) :
    a = b ∨ a.stop < b.base ∨ b.stop < a.base := by
  rcases Nat.lt_trichotomy a.base b.base with hlt | heq | hlt
  · exact .inr (.inl (h.gap a ha b hb hlt))
  · exact .inl (h.sorted.eq_of_key ha hb heq)
  · exact .inr (.inr (h.gap b hb a ha hlt))

theorem start : Tiling lo hi [] [] :=
  ⟨List.Pairwise.nil, by simp, by simp, by simp, by simp, List.Pairwise.nil, by simp⟩

theorem startFull (h : lo < hi) : Tiling lo hi [⟨lo, hi - lo⟩] [] := by
  refine ⟨List.pairwise_singleton _ _, ?_, ?_, ?_, by simp, List.Pairwise.nil, by simp⟩ <;>
    simp [Span.Within, Span.stop] <;> omega

/-- The live span `b` is cut out of the free span `c`, of which `remains` is
left. -/
theorem cut (h : Tiling lo hi free live) (remains : Option Span) (hc : c ∈ free)
    (hb : b.Within c.base c.stop)
    (hrem : ∀ r, remains = some r → r.Within c.base c.stop ∧ 0 < r.size ∧ b.Disjoint r)
    (hs : Sorted Span.base free')
    (hf : ∀ x ∈ free', (x ∈ free ∧ x ≠ c) ∨ remains = some x) :
    Tiling lo hi free' (b :: live) := by
  have hcin := h.freeIn c hc
  simp only [Span.Within, Span.stop] at *
  refine ⟨hs, ?_, ?_, ?_, ?_, ?_, ?_⟩
  · intro x hx y hy hxy
    rcases hf x hx with ⟨hx', hxc⟩ | hx' <;> rcases hf y hy with ⟨hy', hyc⟩ | hy'
    · exact h.gap x hx' y hy' hxy
    · have hr := hrem y hy'
      have := h.cases hx' hc
      simp only [Span.stop] at *
      rcases this with rfl | this | this
      · exact absurd rfl hxc
      · omega
      · omega
    · have hr := hrem x hx'
      have := h.cases hc hy'
      simp only [Span.stop] at *
      rcases this with rfl | this | this
      · exact absurd rfl hyc
      · omega
      · omega
    · obtain rfl : x = y := Option.some.inj (hx'.symm.trans hy')
      exact absurd hxy (lt_irrefl _)
  · intro x hx
    rcases hf x hx with ⟨hx', -⟩ | hx'
    · exact h.pos x hx'
    · exact (hrem x hx').2.1
  · intro x hx
    rcases hf x hx with ⟨hx', -⟩ | hx'
    · exact h.freeIn x hx'
    · have hr := hrem x hx'
      simp only [Span.Within, Span.stop]
      omega
  · intro x hx
    rcases List.mem_cons.mp hx with rfl | hx
    · simp only [Span.Within, Span.stop]
      omega
    · exact h.liveIn x hx
  · refine List.pairwise_cons.mpr ⟨fun x hx => ?_, h.disjoint⟩
    have := h.apart x hx c hc
    simp only [Span.Disjoint, Span.stop] at *
    omega
  · intro x hx y hy
    rcases hf y hy with ⟨hy', hyc⟩ | hy'
    · rcases List.mem_cons.mp hx with rfl | hx
      · have := h.cases hy' hc
        simp only [Span.Disjoint, Span.stop] at *
        rcases this with rfl | this | this
        · exact absurd rfl hyc
        · omega
        · omega
      · exact h.apart x hx y hy'
    · obtain ⟨hr, hpos, hd⟩ := hrem y hy'
      rcases List.mem_cons.mp hx with rfl | hx
      · exact hd
      · have := h.apart x hx c hc
        simp only [Span.Disjoint, Span.stop] at *
        omega

/-- The area grows and the live span is taken from what is new. -/
theorem grow (h : Tiling lo hi free live) (hlo : lo ≤ hi) (hb : b.Within hi hi') :
    Tiling lo hi' free (b :: live) := by
  simp only [Span.Within, Span.stop] at *
  refine ⟨h.sorted, h.gap, h.pos, ?_, ?_, ?_, ?_⟩
  · intro x hx
    have := h.freeIn x hx
    simp only [Span.Within, Span.stop] at *
    omega
  · intro x hx
    rcases List.mem_cons.mp hx with rfl | hx
    · simp only [Span.Within, Span.stop]
      omega
    · have := h.liveIn x hx
      simp only [Span.Within, Span.stop] at *
      omega
  · refine List.pairwise_cons.mpr ⟨fun x hx => ?_, h.disjoint⟩
    have := h.liveIn x hx
    simp only [Span.Within, Span.Disjoint, Span.stop] at *
    omega
  · intro x hx y hy
    rcases List.mem_cons.mp hx with rfl | hx
    · have := h.freeIn y hy
      simp only [Span.Within, Span.Disjoint, Span.stop] at *
      omega
    · exact h.apart x hx y hy

-- ---------------------------------------------------------------------------
-- Giving back
-- ---------------------------------------------------------------------------

def merged (left : Option Span) (b : Span) (right : Option Span) : Span where
  base := (left.map Span.base).getD b.base
  size := (left.map Span.size).getD 0 + b.size + (right.map Span.size).getD 0

structure Touching (free : List Span) (b : Span) (left right : Option Span) : Prop where
  left : ∀ f, left = some f ↔ f ∈ free ∧ f.stop = b.base
  right : ∀ f, right = some f ↔ f ∈ free ∧ f.base = b.stop

/-- What is merged reaches from the start of the left neighbour to the end of
the right one. -/
theorem Touching.merged (ht : Touching free b left right) :
    (left = none ∧ (merged left b right).base = b.base ∨
      ∃ f ∈ free, left = some f ∧ f.stop = b.base ∧ (Tiling.merged left b right).base = f.base) ∧
    (right = none ∧ (Tiling.merged left b right).stop = b.stop ∨
      ∃ f ∈ free, right = some f ∧ f.base = b.stop ∧ (Tiling.merged left b right).stop = f.stop) := by
  cases hl : left with
  | none =>
    cases hr : right with
    | none => simp [Tiling.merged, Span.stop]
    | some r =>
      obtain ⟨hr1, hr2⟩ := (ht.right r).mp hr
      simp only [Tiling.merged, Span.stop] at *
      exact ⟨.inl ⟨trivial, rfl⟩, .inr ⟨r, hr1, rfl, hr2, by simp; omega⟩⟩
  | some l =>
    obtain ⟨hl1, hl2⟩ := (ht.left l).mp hl
    cases hr : right with
    | none =>
      simp only [Tiling.merged, Span.stop] at *
      exact ⟨.inr ⟨l, hl1, rfl, hl2, rfl⟩, .inl ⟨trivial, by simp; omega⟩⟩
    | some r =>
      obtain ⟨hr1, hr2⟩ := (ht.right r).mp hr
      simp only [Tiling.merged, Span.stop] at *
      exact ⟨.inr ⟨l, hl1, rfl, hl2, rfl⟩, .inr ⟨r, hr1, rfl, hr2, by simp; omega⟩⟩

theorem Touching.gap (h : Tiling lo hi free live) (hb : b ∈ live) (hpos : 0 < b.size)
    (ht : Touching free b left right) (hf : f ∈ free) (hl : left ≠ some f) (hr : right ≠ some f) :
    f.stop < (Tiling.merged left b right).base ∨ (Tiling.merged left b right).stop < f.base := by
  have hd := h.apart b hb f hf
  have hfpos := h.pos f hf
  have hnl : f.stop ≠ b.base := fun he => hl ((ht.left f).mpr ⟨hf, he⟩)
  have hnr : f.base ≠ b.stop := fun he => hr ((ht.right f).mpr ⟨hf, he⟩)
  have hbs : b.stop = b.base + b.size := rfl
  have hside : f.stop < b.base ∨ b.stop < f.base := by
    simp only [Span.Disjoint] at hd
    omega
  obtain ⟨hml, hmr⟩ := ht.merged
  rcases hside with hlt | hlt
  · left
    rcases hml with ⟨-, hm⟩ | ⟨l, hl1, rfl, hl2, hm⟩
    · omega
    · rcases h.cases hf hl1 with rfl | hc | hc
      · exact absurd rfl hl
      · omega
      · have := h.pos l hl1
        have : l.stop = l.base + l.size := rfl
        have : f.stop = f.base + f.size := rfl
        omega
  · right
    rcases hmr with ⟨-, hm⟩ | ⟨r, hr1, rfl, hr2, hm⟩
    · omega
    · rcases h.cases hf hr1 with rfl | hc | hc
      · exact absurd rfl hr
      · have := h.pos r hr1
        have : r.stop = r.base + r.size := rfl
        have : f.stop = f.base + f.size := rfl
        omega
      · omega

theorem Touching.within (h : Tiling lo hi free live) (hb : b ∈ live)
    (ht : Touching free b left right) : (Tiling.merged left b right).Within lo hi := by
  obtain ⟨hml, hmr⟩ := ht.merged
  have hbin := h.liveIn b hb
  constructor
  · rcases hml with ⟨-, hm⟩ | ⟨l, hl, -, -, hm⟩
    · exact hm ▸ hbin.1
    · exact hm ▸ (h.freeIn l hl).1
  · rcases hmr with ⟨-, hm⟩ | ⟨r, hr, -, -, hm⟩
    · exact hm ▸ hbin.2
    · exact hm ▸ (h.freeIn r hr).2

theorem Touching.disjoint (h : Tiling lo hi free live) (hb : b ∈ live)
    (ht : Touching free b left right) (hx : x ∈ live.erase b) :
    x.Disjoint (Tiling.merged left b right) := by
  have hpair := ((List.perm_cons_erase hb).pairwise_iff fun h => Span.Disjoint.symm h).mp h.disjoint
  have hxb := (List.pairwise_cons.mp hpair).1 x hx
  have hx' := List.mem_of_mem_erase hx
  obtain ⟨hml, hmr⟩ := ht.merged
  have hms : (Tiling.merged left b right).stop =
    (Tiling.merged left b right).base + (Tiling.merged left b right).size := rfl
  have hbs : b.stop = b.base + b.size := rfl
  refine Span.disjoint_iff.mpr fun z hz hzm => ?_
  have hzb := Span.disjoint_iff.mp hxb.symm z
  simp only [Span.mem_iff] at hzb hzm hz
  have hout : ∀ f ∈ free, ¬ (f.base ≤ z ∧ z < f.stop) := fun f hf hzf =>
    Span.disjoint_iff.mp (h.apart x hx' f hf) z (Span.mem_iff.mpr hz) hzf
  rcases hml with ⟨-, hm⟩ | ⟨l, hl, -, hle, hm⟩ <;>
    rcases hmr with ⟨-, hm'⟩ | ⟨r, hr, -, hre, hm'⟩
  · omega
  · have := hout r hr
    omega
  · have := hout l hl
    omega
  · have := hout l hl
    have := hout r hr
    omega

/-- A live span is given up for the free span `c`, which keeps a gap to the
others. -/
theorem put (h : Tiling lo hi free live) (hb : b ∈ live) (hin : c.Within lo hi) (hpos : 0 < c.size)
    (hlive : ∀ x ∈ live.erase b, x.Disjoint c) (hs : Sorted Span.base free')
    (hf : ∀ x ∈ free', x = c ∨ (x ∈ free ∧ (x.stop < c.base ∨ c.stop < x.base))) :
    Tiling lo hi free' (live.erase b) := by
  have hpair := ((List.perm_cons_erase hb).pairwise_iff fun h => Span.Disjoint.symm h).mp h.disjoint
  have hcs : c.stop = c.base + c.size := rfl
  refine ⟨hs, ?_, ?_, ?_, fun x hx => h.liveIn x (List.mem_of_mem_erase hx),
    (List.pairwise_cons.mp hpair).2, ?_⟩
  · intro x hx y hy hxy
    rcases hf x hx with rfl | ⟨hx, hgx⟩ <;> rcases hf y hy with rfl | ⟨hy, hgy⟩
    · exact absurd hxy (lt_irrefl _)
    · rcases hgy with hg | hg
      · have : y.stop = y.base + y.size := rfl
        omega
      · exact hg
    · rcases hgx with hg | hg
      · exact hg
      · omega
    · exact h.gap x hx y hy hxy
  · intro x hx
    rcases hf x hx with rfl | ⟨hx, -⟩
    · exact hpos
    · exact h.pos x hx
  · intro x hx
    rcases hf x hx with rfl | ⟨hx, -⟩
    · exact hin
    · exact h.freeIn x hx
  · intro x hx y hy
    rcases hf y hy with rfl | ⟨hy, -⟩
    · exact hlive x hx
    · exact h.apart x (List.mem_of_mem_erase hx) y hy

theorem merged_pos (left right : Option Span) (hpos : 0 < b.size) : 0 < (merged left b right).size := by
  simp only [merged]
  omega

theorem release (h : Tiling lo hi free live) (hb : b ∈ live) (hpos : 0 < b.size)
    (ht : Touching free b left right) (hs : Sorted Span.base free')
    (hf : ∀ x ∈ free', x = merged left b right ∨ (x ∈ free ∧ left ≠ some x ∧ right ≠ some x)) :
    Tiling lo hi free' (live.erase b) := by
  refine h.put hb (ht.within h hb) (merged_pos _ _ hpos) (fun x hx => ht.disjoint h hb hx) hs
    fun x hx => (hf x hx).imp_right fun ⟨hx, hl, hr⟩ => ⟨hx, ?_⟩
  exact Touching.gap h hb hpos ht hx hl hr

theorem thin (h : Tiling lo hi free live) (hs : Sorted Span.base free') (hf : free' ⊆ free)
    (hl : live'.Sublist live) : Tiling lo hi free' live' :=
  ⟨hs, fun a ha b hb => h.gap a (hf ha) b (hf hb), fun f hf' => h.pos f (hf hf'),
    fun f hf' => h.freeIn f (hf hf'), fun b hb => h.liveIn b (hl.subset hb), h.disjoint.sublist hl,
    fun b hb f hf' => h.apart b (hl.subset hb) f (hf hf')⟩

theorem perm (h : Tiling lo hi free live) (hp : live.Perm live') : Tiling lo hi free live' :=
  ⟨h.sorted, h.gap, h.pos, h.freeIn, fun b hb => h.liveIn b (hp.mem_iff.mpr hb),
    (hp.pairwise_iff fun h => Span.Disjoint.symm h).mp h.disjoint,
    fun b hb => h.apart b (hp.mem_iff.mpr hb)⟩

end

end Tiling

-- ---------------------------------------------------------------------------
-- Nothing is lost
-- ---------------------------------------------------------------------------

namespace Covered

section
variable {lo hi hi' : Nat} {free free' live live' rest rest' : List Span} {b c : Span}
  {left right : Option Span}

theorem cut (h : Covered lo hi free live rest)
    (hc : ∀ x ∈ c, x ∈ b ∨ (∃ f ∈ free', x ∈ f) ∨ ∃ g ∈ rest', x ∈ g)
    (hf : ∀ f ∈ free, f ≠ c → f ∈ free') (hr : ∀ g ∈ rest, g ∈ rest') :
    Covered lo hi free' (b :: live) rest' := by
  intro x h1 h2
  rcases h x h1 h2 with ⟨y, hy, hx⟩ | ⟨f, hfm, hx⟩ | ⟨g, hg, hx⟩
  · exact .inl ⟨y, List.mem_cons_of_mem b hy, hx⟩
  · by_cases he : f = c
    · subst he
      rcases hc x hx with hb | hx
      · exact .inl ⟨b, List.mem_cons_self, hb⟩
      · exact .inr hx
    · exact .inr (.inl ⟨f, hf f hfm he, hx⟩)
  · exact .inr (.inr ⟨g, hr g hg, hx⟩)

theorem grow (h : Covered lo hi free live rest)
    (hn : ∀ x, hi ≤ x → x < hi' → x ∈ b ∨ ∃ g ∈ rest', x ∈ g) (hr : ∀ g ∈ rest, g ∈ rest') :
    Covered lo hi' free (b :: live) rest' := by
  intro x h1 h2
  rcases Nat.lt_or_ge x hi with hlt | hge
  · rcases h x h1 hlt with ⟨y, hy, hx⟩ | hx | ⟨g, hg, hx⟩
    · exact .inl ⟨y, List.mem_cons_of_mem b hy, hx⟩
    · exact .inr (.inl hx)
    · exact .inr (.inr ⟨g, hr g hg, hx⟩)
  · rcases hn x hge h2 with hb | hx
    · exact .inl ⟨b, List.mem_cons_self, hb⟩
    · exact .inr (.inr hx)

theorem release (h : Covered lo hi free live rest) (ht : Tiling.Touching free b left right)
    (hm : Tiling.merged left b right ∈ free')
    (hf : ∀ f ∈ free, left ≠ some f → right ≠ some f → f ∈ free') :
    Covered lo hi free' (live.erase b) rest := by
  obtain ⟨hml, hmr⟩ := ht.merged
  have hin : ∀ x, (Tiling.merged left b right).base ≤ x → x < (Tiling.merged left b right).stop →
      (∃ y ∈ live.erase b, x ∈ y) ∨ (∃ f ∈ free', x ∈ f) ∨ ∃ g ∈ rest, x ∈ g :=
    fun x h1 h2 => .inr (.inl ⟨_, hm, h1, h2⟩)
  have hbl : (Tiling.merged left b right).base ≤ b.base := by
    rcases hml with ⟨-, hm⟩ | ⟨f, -, -, hfe, hm⟩
    · omega
    · rw [hm, ← hfe]
      exact Nat.le_add_right _ _
  have hbr : b.stop ≤ (Tiling.merged left b right).stop := by
    rcases hmr with ⟨-, hm⟩ | ⟨f, -, -, hfe, hm⟩
    · omega
    · rw [hm, ← hfe]
      exact Nat.le_add_right _ _
  intro x h1 h2
  rcases h x h1 h2 with ⟨y, hy, hx⟩ | ⟨f, hfm, hx⟩ | hx
  · by_cases he : y = b
    · subst he
      exact hin x (hbl.trans hx.1) (Nat.lt_of_lt_of_le hx.2 hbr)
    · exact .inl ⟨y, (List.mem_erase_of_ne he).mpr hy, hx⟩
  · by_cases hl : left = some f
    · have hle := ((ht.left f).mp hl).2
      rcases hml with ⟨hnone, -⟩ | ⟨g, -, hg, -, hbase⟩
      · cases hl.symm.trans hnone
      · obtain rfl := Option.some.inj (hg.symm.trans hl)
        refine hin x (hbase ▸ hx.1) (Nat.lt_of_lt_of_le hx.2 ?_)
        rw [hle]
        exact (Nat.le_add_right b.base b.size).trans hbr
    · by_cases hr : right = some f
      · have hre := ((ht.right f).mp hr).2
        rcases hmr with ⟨hnone, -⟩ | ⟨g, -, hg, -, hstop⟩
        · cases hr.symm.trans hnone
        · obtain rfl := Option.some.inj (hg.symm.trans hr)
          refine hin x (le_trans ?_ hx.1) (hstop ▸ hx.2)
          rw [hre]
          exact hbl.trans (Nat.le_add_right b.base b.size)
      · exact .inr (.inl ⟨f, hf f hfm hl hr, hx⟩)
  · exact .inr (.inr hx)

end

end Covered

end Shigure
