import Xv6.Lib.Extents
import Xv6.Lib.Linked
import Xv6.Lib.Run
import Xv6.Vm

/-!
# Xv6.Umalloc

The memory allocator of user programs (`umalloc.c`).

Memory is kept as the headers at its addresses: the headers in use never overlap,
and what a program stores into its blocks can change any header that lies in them.
What `sbrk` returns is an input of the steps that call it.
-/

namespace Xv6.Umalloc

open Lib Function List

/-- `union header` -/
structure Header where
  ptr : Nat
  size : Nat
  deriving DecidableEq, Repr

/-- The memory of the allocator, with the regions it has from `sbrk`: where each begins and
its number of units. -/
structure Heap where
  mem : Nat → Header
  freep : Nat
  regions : List (Nat × Nat)

/-- `p + n` for a `Header*` -/
def plus (p n : Nat) : Nat := uint (p + 8 * n)

namespace Heap

/-- The header at `p` is changed. -/
def set (h : Heap) (p : Nat) (hd : Header) : Heap := { h with mem := update h.mem p hd }

/-- A bound for the steps of the loops. -/
def steps (h : Heap) : Nat := (h.regions.map Prod.snd).sum + 1

/-- The condition that ends the loop of `free`: `bp` belongs behind `p`. -/
def Behind (h : Heap) (bp p : Nat) : Prop :=
  (bp > p ∧ bp < (h.mem p).ptr) ∨
    (p ≥ (h.mem p).ptr ∧ (bp > p ∨ bp < (h.mem p).ptr))

instance (h : Heap) (bp : Nat) : DecidablePred (h.Behind bp) :=
  fun _ => inferInstanceAs (Decidable (_ ∨ _))

/-- The first half of `free`: `bp` is joined to the upper neighbour. -/
def joinUpper (h : Heap) (p bp : Nat) : Heap :=
  let next := (h.mem p).ptr
  if plus bp (h.mem bp).size = next then
    h.set bp { ptr := (h.mem next).ptr, size := uint ((h.mem bp).size + (h.mem next).size) }
  else h.set bp { h.mem bp with ptr := next }

/-- The second half of `free`: `bp` is joined to the lower neighbour. -/
def joinLower (h : Heap) (p bp : Nat) : Heap :=
  if plus p (h.mem p).size = bp then
    h.set p { ptr := (h.mem bp).ptr, size := uint ((h.mem p).size + (h.mem bp).size) }
  else h.set p { h.mem p with ptr := bp }

/-- `free(ap)` -/
def free (h : Heap) (ap : Nat) : Option Heap :=
  let bp := ap - 8
  match walk (fun p => (h.mem p).ptr) (h.Behind bp) h.steps h.freep h.freep with
  | none => none
  | some (_, p) => some { (h.joinUpper p bp).joinLower p bp with freep := p }

/-- The units `morecore` asks for. -/
def coreUnits (nu : Nat) : Nat := if nu < 4096 then 4096 else nu

/-- A region of `nu` units at `p`, made into a block. -/
def withRegion (h : Heap) (p nu : Nat) : Heap :=
  { h.set p { h.mem p with size := nu } with regions := h.regions ++ [(p, nu)] }

/-- `morecore(nu)`, where `sbrk` returns `brk` (`none` for -1) -/
def morecore (h : Heap) (nu : Nat) : Option Nat → Option (Heap × Nat)
  | none => some (h, 0)
  | some p =>
    match (h.withRegion p (coreUnits nu)).free (plus p 1) with
    | none => none
    | some h => some (h, h.freep)

/-- `malloc` has found the block `p` behind `prevp`. -/
def take (h : Heap) (nunits prevp p : Nat) : Heap × Nat :=
  if (h.mem p).size = nunits then
    ({ h.set prevp { h.mem prevp with ptr := (h.mem p).ptr } with freep := prevp }, plus p 1)
  else
    let size := (h.mem p).size - nunits
    let h := h.set p { h.mem p with size }
    let p := plus p size
    ({ h.set p { h.mem p with size := nunits } with freep := prevp }, plus p 1)

/-- The conditions in the loop of `malloc` at which it does not just go on to the next block. -/
def Stops (h : Heap) (nunits p : Nat) : Prop := nunits ≤ (h.mem p).size ∨ p = h.freep

instance (h : Heap) (nunits : Nat) : DecidablePred (h.Stops nunits) :=
  fun _ => inferInstanceAs (Decidable (_ ∨ _))

/-- The loop of `malloc`; it goes on behind `freep` after each call of `morecore`, for which
`sbrk` returns the next of `brks`. -/
def search (nunits : Nat) : List (Option Nat) → Heap → Option (Heap × Nat)
  | brks, h =>
    match walk (fun p => (h.mem p).ptr) (h.Stops nunits) h.steps h.freep (h.mem h.freep).ptr with
    | none => none
    | some (prevp, p) =>
      if nunits ≤ (h.mem p).size then some (h.take nunits prevp p)
      else
        match brks with
        | [] => none
        | brk :: brks =>
          match h.morecore nunits brk with
          | none => none
          | some (h', p) => if p = 0 then some (h', 0) else search nunits brks h'

/-- `nunits` -/
def nunits (nbytes : UInt32) : Nat := uint (nbytes.toNat + 8 - 1) / 8 + 1

/-- `malloc(nbytes)`, where `base` is `&base` -/
def malloc (base : Nat) (h : Heap) (nbytes : UInt32) (brks : List (Option Nat)) :
    Option (Heap × Nat) :=
  search (nunits nbytes) brks
    (if h.freep = 0 then { h.set base { ptr := base, size := 0 } with freep := base } else h)

/-- What `sbrk` may return when `nu` units are asked for: -1, or a region above the program's
own memory that touches none of the earlier ones. -/
def Fresh (base : Nat) (h : Heap) (nu : Nat) : Option Nat → Prop
  | none => True
  | some a => base + 8 ≤ a ∧ a + 8 * nu < 2 ^ 32 ∧
      ∀ r ∈ h.regions, a + 8 * nu ≤ r.1 ∨ r.1 + 8 * r.2 ≤ a

instance (base : Nat) (h : Heap) (nu : Nat) : DecidablePred (Fresh base h nu)
  | none => inferInstanceAs (Decidable True)
  | some _ => inferInstanceAs (Decidable (_ ∧ _))

/-! ## The free list -/

/-- The extent of the block with its header at `p`. -/
def extent (h : Heap) (p : Nat) : Nat × Nat := (p, (h.mem p).size)

/-- The free list has the nodes `l`: it is a ring in address order that begins at `base`, and no
block reaches the next.  The blocks of `l` and the extents `es`, which are not in the
list, are the regions cut up. -/
structure Held (base : Nat) (h : Heap) (l : List Nat) (es : List (Nat × Nat)) : Prop where
  ring : Ring (fun p => (h.mem p).ptr) base l
  sorted : l.Pairwise fun a b => a + 8 * (h.mem a).size < b
  root : (h.mem base).size = 0
  freep : h.freep ∈ l
  pos : ∀ a ∈ l, a ≠ base → 0 < (h.mem a).size
  headers : ∀ e ∈ es, 0 < e.2 ∧ (h.mem e.1).size = e.2
  tiles : Tiles 8 (l.map h.extent ++ es) h.regions
  above : ∀ r ∈ h.regions, base + 8 ≤ r.1 ∧ r.1 + 8 * r.2 < 2 ^ 32

/-- Every extent of the regions lies above `base` and below the end of memory. -/
theorem bounds_of_tiles {base : Nat} {es rs : List (Nat × Nat)} (ht : Tiles 8 es rs)
    (habove : ∀ r ∈ rs, base + 8 ≤ r.1 ∧ r.1 + 8 * r.2 < 2 ^ 32) {e : Nat × Nat} (he : e ∈ es)
    (hpos : 0 < e.2) : base + 8 ≤ e.1 ∧ e.1 + 8 * e.2 < 2 ^ 32 := by
  obtain ⟨r, hr, hxr⟩ := (ht.covers e.1).mp ⟨e, he, mem_span.mpr ⟨le_rfl, by omega⟩⟩
  obtain ⟨r', hr', hxr'⟩ :=
    (ht.covers (e.1 + 8 * e.2 - 1)).mp ⟨e, he, mem_span.mpr ⟨by omega, by omega⟩⟩
  have h1 := (habove r hr).1
  have h2 := (habove r' hr').2
  rw [mem_span] at hxr hxr'
  omega

namespace Held

variable {base bp n : Nat} {h : Heap} {l P Q : List Nat} {es : List (Nat × Nat)} {p : Nat}

variable {e : Nat × Nat} {a : Nat}

section

variable (hh : Held base h l es)
include hh

theorem bounds (he : e ∈ l.map h.extent ++ es)
    (hpos : 0 < e.2) : base + 8 ≤ e.1 ∧ e.1 + 8 * e.2 < 2 ^ 32 :=
  bounds_of_tiles hh.tiles hh.above he hpos

theorem lt : l.Pairwise (· < ·) :=
  hh.sorted.imp fun hab => by omega

theorem nodup : l.Nodup := hh.lt.imp fun hab => hab.ne

theorem base_le (ha : a ∈ l) : base ≤ a := by
  obtain ⟨l', rfl⟩ := hh.ring.eq_cons
  rcases mem_cons.mp ha with rfl | ha
  · exact le_rfl
  · exact (rel_of_pairwise_cons hh.lt ha).le

theorem length_le : l.length ≤ h.steps := by
  have hunits := hh.tiles.units
  obtain ⟨l', rfl⟩ := hh.ring.eq_cons
  have hsum : l'.length ≤ (l'.map fun a => (h.mem a).size).sum := by
    have hone := length_le_sum_of_one_le (l'.map fun a => (h.mem a).size) (by
      intro i hi
      obtain ⟨a, ha, rfl⟩ := mem_map.mp hi
      exact hh.pos a (mem_cons_of_mem _ ha) (rel_of_pairwise_cons hh.lt ha).ne')
    rwa [length_map] at hone
  have hmap : ((l'.map h.extent).map Prod.snd).sum = (l'.map fun a => (h.mem a).size).sum := by
    rw [map_map]
    rfl
  rw [map_append, sum_append, map_cons, map_cons, sum_cons, hmap] at hunits
  rw [length_cons, steps]
  omega

/-- A block of the list and one that is not in it. -/
theorem disjoint (ha : a ∈ l) (he : e ∈ es) : Disjoint (span 8 (h.extent a)) (span 8 e) :=
  (pairwise_append.mp hh.tiles.apart).2.2 _ (mem_map_of_mem ha) e he

/-- A block that is not in the list lies above `base`, and its header is none of the list. -/
theorem outside (he : e ∈ es) : base < e.1 ∧ e.1 ∉ l := by
  have hpos := (hh.headers e he).1
  have hbase := (hh.bounds (mem_append_right _ he) hpos).1
  refine ⟨by omega, fun hl => ?_⟩
  exact start_ne_of_disjoint (hh.disjoint hl he) (by decide) (hh.pos _ hl (by omega)) hpos rfl

end

/-- Blocks that are not in the list have headers of their own. -/
theorem header_ne (hh : Held base h l ((bp, n) :: es)) (he : e ∈ es) : e.1 ≠ bp := by
  have hapart := (pairwise_append.mp hh.tiles.apart).2.1
  exact (start_ne_of_disjoint (rel_of_pairwise_cons hapart he) (by decide)
    (hh.headers _ mem_cons_self).1 (hh.headers e (mem_cons_of_mem _ he)).1).symm

theorem place (hh : Held base h l ((bp, n) :: es)) :
    ∃ P p Q, l = P ++ p :: Q ∧ p < bp ∧ ∀ q ∈ Q, bp < q := by
  obtain ⟨hbase, hnew⟩ := hh.outside mem_cons_self
  obtain ⟨l', rfl⟩ := hh.ring.eq_cons
  exact exists_last_lt hh.lt hbase fun hbp => hnew (mem_cons_of_mem _ hbp)

/-- The loop of `free` ends only there. -/
theorem behind_iff (hh : Held base h (P ++ p :: Q) es) (hbase : base < bp) (hp : p < bp)
    (hQ : ∀ q ∈ Q, bp < q) (ha : a ∈ P ++ p :: Q) : h.Behind bp a ↔ a = p := by
  have hbasea := hh.base_le ha
  have hlt := hh.lt
  have hpmem : p ∈ P ++ p :: Q := by simp
  -- of the nodes only those up to `p` lie below `bp`
  have hbelow : ∀ x ∈ P ++ p :: Q, x < bp → x ≤ p := by
    intro x hx hxbp
    rcases mem_append.mp hx with hx | hx
    · exact ((pairwise_append.mp hlt).2.2 x hx p mem_cons_self).le
    · rcases mem_cons.mp hx with rfl | hx
      · exact le_rfl
      · exact absurd (hQ x hx) hxbp.asymm
  have habove : ∀ x ∈ P ++ p :: Q, p < x → bp < x := by
    intro x hx hpx
    rcases mem_append.mp hx with hx | hx
    · exact absurd ((pairwise_append.mp hlt).2.2 x hx p mem_cons_self) hpx.asymm
    · rcases mem_cons.mp hx with rfl | hx
      · exact absurd hpx (lt_irrefl _)
      · exact hQ x hx
  obtain ⟨A, B, hAB⟩ := append_of_mem ha
  have hring := hh.ring.linked
  rw [hAB] at hlt hring hpmem hbelow habove
  have hptr : (h.mem a).ptr = first B base := hring.next_eq
  obtain ⟨hA, hB, hAa⟩ := pairwise_append.mp hlt
  have hleft : ∀ x ∈ A, x < a := fun x hx => hAa x hx a mem_cons_self
  have hright : ∀ x ∈ B, a < x := fun x hx => rel_of_pairwise_cons hB hx
  have hple : p ∉ B → p ≤ a := by
    intro hpB
    rcases mem_append.mp hpmem with hx | hx
    · exact (hleft p hx).le
    · rcases mem_cons.mp hx with rfl | hx
      · exact le_rfl
      · exact absurd hx hpB
  unfold Behind
  rw [hptr]
  cases B with
  | nil =>
    have hpa := hple not_mem_nil
    have haup := hbelow a (by simp)
    rw [first_nil]
    omega
  | cons b B =>
    have hab := hright b mem_cons_self
    have hbup := habove b (by simp)
    have haup := hbelow a (by simp)
    have hpb : p < b → p ≤ a := by
      intro hpb
      refine hple fun hpB => ?_
      rcases mem_cons.mp hpB with rfl | hpB
      · omega
      · exact absurd (rel_of_pairwise_cons (pairwise_cons.mp hB).2 hpB) hpb.asymm
    rw [first_cons]
    omega

theorem plus_size (hh : Held base h l es) (he : e ∈ l.map h.extent ++ es)
    (hpos : 0 < e.2) : plus e.1 e.2 = e.1 + 8 * e.2 :=
  Nat.mod_eq_of_lt (hh.bounds he hpos).2

/-- A block that belongs behind `p` ends at or before the nodes behind it. -/
theorem end_le (hh : Held base h (P ++ p :: Q) ((bp, n) :: es)) (hQ : ∀ q ∈ Q, bp < q) {q : Nat}
    (hq : q ∈ Q) : bp + 8 * n ≤ q := by
  obtain ⟨hbase, _⟩ := hh.outside mem_cons_self
  have hql : q ∈ P ++ p :: Q := by simp [hq]
  have hlt := hQ q hq
  exact end_le_of_disjoint (hh.disjoint hql mem_cons_self).symm (by decide)
    (hh.pos q hql (by omega)) hlt

/-- A node of the list, taken to the front of the extents. -/
theorem perm_node (f : Nat → Nat × Nat) (A B : List Nat) (a : Nat) (es : List (Nat × Nat)) :
    ((A ++ a :: B).map f ++ es).Perm (f a :: ((A ++ B).map f ++ es)) := by
  simp [perm_middle]

theorem node_ne (hh : Held base h (P ++ p :: Q) es) (ha : a ∈ P ++ Q) : a ≠ p := by
  rintro rfl
  have hnodup := hh.nodup
  rw [nodup_middle, nodup_cons] at hnodup
  exact hnodup.1 ha

variable {h' : Heap} {es' : List (Nat × Nat)}

/-- The list with the nodes `p :: N` replaced by `p :: M`; the other nodes are unchanged. -/
theorem rebuild {N M : List Nat} (hh : Held base h (P ++ (p :: N ++ Q)) es)
    (hregions : h'.regions = h.regions) (hsame : ∀ a ∈ P ++ Q, h'.mem a = h.mem a)
    (hroot : (h'.mem base).size = 0) (hfreep : h'.freep ∈ P ++ (p :: M ++ Q))
    (hlinked : Linked (fun a => (h'.mem a).ptr) (p :: M) (first Q base))
    (hsorted : (p :: M).Pairwise fun a b => a + 8 * (h'.mem a).size < b)
    (hgap : ∀ a ∈ p :: M, ∀ q ∈ Q, a + 8 * (h'.mem a).size < q)
    (hpos : ∀ a ∈ p :: M, a ≠ base → 0 < (h'.mem a).size)
    (hheaders : ∀ e ∈ es', 0 < e.2 ∧ (h'.mem e.1).size = e.2)
    (htiles : Tiles 8 ((p :: M).map h'.extent ++ ((P ++ Q).map h.extent ++ es')) h.regions) :
    Held base h' (P ++ (p :: M ++ Q)) es' := by
  obtain ⟨hPs, hNs, hPN⟩ := pairwise_append.mp hh.sorted
  obtain ⟨hPlinked, hNlinked⟩ := linked_append.mp hh.ring.linked
  have hPsame : ∀ a ∈ P, h'.mem a = h.mem a := fun a ha => hsame a (mem_append_left _ ha)
  have hQsame : ∀ a ∈ Q, h'.mem a = h.mem a := fun a ha => hsame a (mem_append_right _ ha)
  have hP : ∀ a ∈ P, ∀ b ∈ p :: M, a + 8 * (h.mem a).size < b := by
    intro a ha b hb
    have hap := hPN a ha p mem_cons_self
    rcases mem_cons.mp hb with rfl | hb
    · exact hap
    · have hpb := rel_of_pairwise_cons hsorted hb
      omega
  exact {
    ring := by
      refine ⟨?_, linked_append.mpr ⟨hPlinked.congr fun a ha => by rw [hPsame a ha], ?_⟩⟩
      · rw [← hh.ring.head]
        cases P <;> rfl
      · refine linked_append.mpr ⟨hlinked, ?_⟩
        exact (linked_append.mp hNlinked).2.congr fun a ha => by rw [hQsame a ha]
    sorted := by
      refine pairwise_append.mpr ⟨hPs.imp_of_mem fun ha _ hab => ?_, ?_, fun a ha b hb => ?_⟩
      · rwa [hPsame _ ha]
      · refine pairwise_append.mpr ⟨hsorted, ?_, hgap⟩
        refine (pairwise_append.mp hNs).2.1.imp_of_mem fun ha _ hab => ?_
        rwa [hQsame _ ha]
      · rw [hPsame a ha]
        rcases mem_append.mp hb with hb | hb
        · exact hP a ha b hb
        · exact hPN a ha b (mem_append_right _ hb)
    root := hroot
    freep := hfreep
    pos := by
      intro a ha hne
      rcases mem_append.mp ha with ha | ha
      · rw [hPsame a ha]
        exact hh.pos a (by simp [ha]) hne
      rcases mem_append.mp ha with ha | ha
      · exact hpos a ha hne
      · rw [hQsame a ha]
        exact hh.pos a (by simp [ha]) hne
    headers := hheaders
    tiles := by
      have hmap : (P ++ Q).map h.extent = (P ++ Q).map h'.extent :=
        map_congr_left fun a ha => by rw [extent, extent, hsame a ha]
      rw [hregions]
      refine htiles.perm ?_
      rw [hmap, ← append_assoc, ← map_append]
      refine .append_right es' (.map _ ?_)
      rw [← append_assoc, ← append_assoc]
      exact perm_append_comm.append_right Q
    above := hregions ▸ hh.above }

section

variable (hh : Held base h (P ++ p :: Q) ((bp, n) :: es))
include hh

/-- **The upper neighbour**: afterwards the block `bp`, which may have grown, ends before the
nodes behind it, of which it may have taken the first. -/
theorem joinUpper_eq (hQ : ∀ q ∈ Q, bp < q) :
    ∃ Q' n', h.joinUpper p bp = h.set bp ⟨first Q' base, n'⟩ ∧ Q' <:+ Q ∧ n ≤ n' ∧
      (∀ q ∈ Q', bp + 8 * n' < q) ∧
      Tiles 8 ((P ++ p :: Q').map h.extent ++ (bp, n') :: es) h.regions := by
  obtain ⟨hpos, hsize⟩ := hh.headers _ mem_cons_self
  obtain ⟨hbase, _⟩ := hh.outside mem_cons_self
  have hptr : (h.mem p).ptr = first Q base := hh.ring.linked.next_eq
  have hplus : plus bp n = bp + 8 * n := hh.plus_size (e := (bp, n)) (by simp) hpos
  simp only at hsize hpos hbase
  unfold joinUpper
  simp only [hptr, hsize, hplus]
  by_cases htouch : bp + 8 * n = first Q base
  · rw [if_pos htouch]
    cases Q with
    | nil =>
      rw [first_nil] at htouch
      omega
    | cons q Q =>
      rw [first_cons] at htouch
      have hlist : P ++ p :: q :: Q = (P ++ [p]) ++ q :: Q := by simp
      have hlist' : P ++ p :: Q = (P ++ [p]) ++ Q := by simp
      rw [hlist] at hh
      have hql : q ∈ (P ++ [p]) ++ q :: Q := by simp
      have hqpos := hh.pos q hql (by omega)
      have hqend := (hh.bounds (mem_append_left _ (mem_map_of_mem hql)) hqpos).2
      have hqptr : (h.mem q).ptr = first Q base := hh.ring.linked.next_eq
      have hsum : uint (n + (h.mem q).size) = n + (h.mem q).size :=
        Nat.mod_eq_of_lt (by simp only [extent] at hqend; omega)
      rw [first_cons, hqptr, hsum]
      refine ⟨Q, _, rfl, suffix_cons q Q, by omega, fun x hx => ?_, ?_⟩
      · have hgap := rel_of_pairwise_cons (pairwise_append.mp hh.sorted).2.1 hx
        omega
      · have hfront := hh.tiles.perm (perm_middle.trans ((perm_node _ _ _ _ _).cons _))
        subst htouch
        rw [hlist']
        exact (Tiles.join_iff.mp hfront).perm perm_middle.symm
  · rw [if_neg htouch]
    refine ⟨Q, n, rfl, suffix_refl Q, le_rfl, fun q hq => ?_, hh.tiles⟩
    cases Q with
    | nil => contradiction
    | cons q0 Q =>
      have hle := hh.end_le hQ (mem_cons_self (a := q0))
      rw [first_cons] at htouch
      rcases mem_cons.mp hq with rfl | hq
      · omega
      · have hlt := (pairwise_append.mp hh.lt).2.1
        have hgap := rel_of_pairwise_cons (pairwise_cons.mp hlt).2 hq
        omega

end

section

-- `h'` is `h` with other headers for the node `p` and the block `bp`, which has `n'` units now
variable {N : List Nat} {n' : Nat} (hh : Held base h (P ++ p :: (N ++ Q)) ((bp, n) :: es))
  (hsame : ∀ x, x ≠ p ∧ x ≠ bp → h'.mem x = h.mem x)
include hh hsame

/-- The other nodes and blocks keep their headers. -/
theorem kept_of_ne : (∀ a ∈ P ++ Q, h'.mem a = h.mem a) ∧
    ∀ e ∈ es, 0 < e.2 ∧ (h'.mem e.1).size = e.2 := by
  have hout := (hh.outside mem_cons_self).2
  refine ⟨fun a ha => hsame a ?_, fun e he => ?_⟩
  · have hal : a ∈ P ++ (N ++ Q) := by
      simp only [mem_append] at ha ⊢
      tauto
    refine ⟨hh.node_ne hal, fun heq => hout ?_⟩
    simp only [← heq, mem_append, mem_cons] at hal ⊢
    tauto
  · have hp : e.1 ≠ p := fun heq => (hh.outside (mem_cons_of_mem _ he)).2 (by simp [heq])
    rw [hsame e.1 ⟨hp, hh.header_ne he⟩]
    exact hh.headers e (mem_cons_of_mem _ he)

variable (hregions : h'.regions = h.regions) (hfreep : h'.freep = p)
  (hn : 0 < n') (hgap : ∀ q ∈ Q, bp + 8 * n' < q)
  (htiles : Tiles 8 ((P ++ p :: Q).map h.extent ++ (bp, n') :: es) h.regions)
include hregions hfreep hn hgap htiles

/-- The block begins where `p` ends, and becomes a part of it. -/
theorem join_node (htouch : p + 8 * (h.mem p).size = bp)
    (hp : h'.mem p = ⟨first Q base, (h.mem p).size + n'⟩) : Held base h' (P ++ ([p] ++ Q)) es := by
  obtain ⟨hnodes, hheaders⟩ := hh.kept_of_ne hsame
  have hbase := (hh.outside mem_cons_self).1
  have hne : p ≠ base := by
    rintro rfl
    rw [hh.root] at htouch
    omega
  refine hh.rebuild (N := N) (M := []) hregions hnodes ?_ (by simp [hfreep]) ?_ ?_ ?_ ?_ hheaders ?_
  · rw [hsame base ⟨hne.symm, hbase.ne⟩]
    exact hh.root
  · simp [Linked, hp]
  · simp
  · intro a ha q hq
    have hq := hgap q hq
    simp only [mem_singleton.mp ha, hp]
    omega
  · intro a ha _
    simp only [mem_singleton.mp ha, hp]
    omega
  · have hfront := htiles.perm ((perm_node h.extent P Q p _).trans (perm_middle.cons _))
    rw [← htouch] at hfront
    simpa [extent, hp] using Tiles.join_iff.mp hfront

/-- The block begins behind the end of `p`, and enters the list. -/
theorem link_node (hpgap : p + 8 * (h.mem p).size < bp) (hp : h'.mem p = { h.mem p with ptr := bp })
    (hbp : h'.mem bp = ⟨first Q base, n'⟩) : Held base h' (P ++ ([p, bp] ++ Q)) es := by
  obtain ⟨hnodes, hheaders⟩ := hh.kept_of_ne hsame
  have hbase := (hh.outside mem_cons_self).1
  refine hh.rebuild (N := N) (M := [bp]) hregions hnodes ?_
    (by simp [hfreep]) ?_ ?_ ?_ ?_ hheaders ?_
  · by_cases hb : base = p
    · rw [hb, hp, ← hb]
      exact hh.root
    · rw [hsame base ⟨hb, hbase.ne⟩]
      exact hh.root
  · simp [Linked, hp, hbp]
  · simpa [hp] using hpgap
  · intro a ha q hq
    have hq := hgap q hq
    rcases mem_cons.mp ha with rfl | ha
    · simp only [hp]
      omega
    · simp only [mem_singleton.mp ha, hbp]
      exact hq
  · intro a ha hne
    rcases mem_cons.mp ha with rfl | ha
    · simp only [hp]
      exact hh.pos a (by simp) hne
    · simp only [mem_singleton.mp ha, hbp]
      exact hn
  · have hfront := htiles.perm ((perm_node h.extent P Q p _).trans (perm_middle.cons _))
    simpa [extent, hp, hbp] using hfront

end

/-- **The lower neighbour**: the block `bp`, joined to its upper neighbour, enters the list or
is joined to `p`. -/
theorem joinLower (hh : Held base h (P ++ p :: Q) ((bp, n) :: es)) (hlt : p < bp) {Q' : List Nat}
    {n' : Nat} (hsuffix : Q' <:+ Q) (hn : 0 < n') (hgap : ∀ q ∈ Q', bp + 8 * n' < q)
    (htiles : Tiles 8 ((P ++ p :: Q').map h.extent ++ (bp, n') :: es) h.regions) :
    ∃ l', Held base { (h.set bp ⟨first Q' base, n'⟩).joinLower p bp with freep := p } l' es ∧
      ∃ y ∈ l', n' ≤ (((h.set bp ⟨first Q' base, n'⟩).joinLower p bp).mem y).size := by
  obtain ⟨N, rfl⟩ := hsuffix
  have hpl : p ∈ P ++ p :: (N ++ Q') := by simp
  have hend := (bounds_of_tiles htiles hh.above (e := (bp, n')) (by simp) hn).2
  have hbase := (hh.outside mem_cons_self).1
  simp only at hend hbase
  have hplus : plus p (h.mem p).size = p + 8 * (h.mem p).size := by
    by_cases hp : p = base
    · rw [hp, hh.root]
      exact Nat.mod_eq_of_lt (by omega)
    · exact hh.plus_size (e := h.extent p) (by simp) (hh.pos p hpl hp)
  have hbp : (h.set bp ⟨first Q' base, n'⟩).mem bp = ⟨first Q' base, n'⟩ := update_self ..
  have hmem : ∀ x, x ≠ bp → (h.set bp ⟨first Q' base, n'⟩).mem x = h.mem x :=
    fun x hx => update_of_ne hx ..
  -- the header of `p` is written last
  have hset : ∀ x v, x ≠ p ∧ x ≠ bp →
      ((h.set bp ⟨first Q' base, n'⟩).set p v).mem x = h.mem x :=
    fun x v hx => (update_of_ne hx.1 ..).trans (hmem x hx.2)
  unfold Heap.joinLower
  rw [hmem p hlt.ne, hbp, hplus]
  by_cases htouch : p + 8 * (h.mem p).size = bp
  · have hsum : uint ((h.mem p).size + n') = (h.mem p).size + n' := Nat.mod_eq_of_lt (by omega)
    rw [if_pos htouch, hsum]
    refine ⟨_, hh.join_node (fun x => hset x _) rfl rfl hn hgap htiles htouch (update_self ..), p,
      by simp, ?_⟩
    rw [show (Heap.set _ p _).mem p = _ from update_self ..]
    exact Nat.le_add_left ..
  · have hle := end_le_of_disjoint (hh.disjoint hpl mem_cons_self) (by decide)
      (hh.headers _ mem_cons_self).1 hlt
    have hnew : ((h.set bp ⟨first Q' base, n'⟩).set p { h.mem p with ptr := bp }).mem bp =
        ⟨first Q' base, n'⟩ := (update_of_ne hlt.ne' ..).trans hbp
    rw [if_neg htouch]
    refine ⟨_, hh.link_node (fun x => hset x _) rfl rfl hn hgap htiles (lt_of_le_of_ne hle htouch)
      (update_self ..) hnew, bp, by simp, ?_⟩
    rw [hnew]

/-- **`free`** returns, and the block is in the free list, perhaps as a part of another. -/
theorem free (hh : Held base h l ((bp, n) :: es)) :
    ∃ h' l', h.free (bp + 8) = some h' ∧ Held base h' l' es ∧ ∃ y ∈ l', n ≤ (h'.mem y).size := by
  obtain ⟨P, p, Q, rfl, hlt, hQ⟩ := hh.place
  have hbase := (hh.outside mem_cons_self).1
  have hpos := (hh.headers _ mem_cons_self).1
  have hbehind : ∀ a ∈ P ++ p :: Q, h.Behind bp a ↔ a = p :=
    fun a ha => hh.behind_iff hbase hlt hQ ha
  obtain ⟨before, hwalk⟩ := hh.ring.walk_unique hh.freep (by simp) hbehind h.freep
  obtain ⟨Q', n', hupper, hsuffix, hn, hgap, htiles⟩ := hh.joinUpper_eq hQ
  obtain ⟨l', hl', y, hy, hny⟩ := hh.joinLower hlt hsuffix (hpos.trans_le hn) hgap htiles
  refine ⟨_, l', ?_, hl', y, hy, hn.trans hny⟩
  simp only [Heap.free, Nat.add_sub_cancel, walk_mono hwalk hh.length_le, hupper]

/-! ### Taking a block out -/

/-- `malloc` with a block that fits exactly: it leaves the list. -/
theorem take_whole (hh : Held base h (P ++ p :: Q) es) (hP : P ≠ []) (hbase : p ≠ base) :
    Held base
      { h.set (P.getLastD p) { h.mem (P.getLastD p) with ptr := (h.mem p).ptr } with
        freep := P.getLastD p }
      (P ++ Q) ((p, (h.mem p).size) :: es) := by
  obtain ⟨P', prev, rfl⟩ : ∃ P' prev, P = P' ++ [prev] :=
    ⟨P.dropLast, P.getLast hP, (dropLast_append_getLast hP).symm⟩
  have hptr : (h.mem p).ptr = first Q base := hh.ring.linked.next_eq
  have hp := hh.pos p (by simp) hbase
  rw [getLastD_concat, hptr, append_assoc]
  rw [append_assoc] at hh
  generalize hH : h.set prev { h.mem prev with ptr := first Q base } = H
  have hprev : H.mem prev = { h.mem prev with ptr := first Q base } := hH ▸ update_self ..
  have hsame : ∀ x, x ≠ prev → H.mem x = h.mem x := fun x hx => hH ▸ update_of_ne hx ..
  have hsize : ∀ x, (H.mem x).size = (h.mem x).size := by
    intro x
    by_cases hx : x = prev
    · rw [hx, hprev]
    · rw [hsame x hx]
  have hpQ := (pairwise_append.mp hh.sorted).2.1
  refine hh.rebuild (N := [p]) (M := []) (hH ▸ rfl) (fun a ha => hsame a (hh.node_ne ?_)) ?_
    (by simp) ?_ ?_ ?_ ?_ ?_ ?_
  · simp only [mem_append] at ha ⊢
    tauto
  · exact (hsize base).trans hh.root
  · simp [Linked, hprev]
  · simp
  · intro a ha q hq
    rw [mem_singleton.mp ha, hsize]
    exact rel_of_pairwise_cons hpQ (mem_cons_of_mem p hq)
  · intro a ha hne
    rw [hsize]
    exact hh.pos a (by simp [mem_singleton.mp ha]) hne
  · intro e he
    rw [hsize]
    rcases mem_cons.mp he with rfl | he
    · exact ⟨hp, rfl⟩
    · exact hh.headers e he
  · refine hh.tiles.perm ?_
    simp only [extent, map_append, map_cons, map_nil, hsize, perm_iff_count, count_append,
      count_cons]
    intro e
    omega

variable {prev nunits : Nat}

/-- `malloc` with a block that is larger: its end leaves the list. -/
theorem take_end (hh : Held base h (P ++ p :: Q) es) {rest : Nat} (hprev : prev ∈ P ++ p :: Q)
    (hn : 0 < nunits) (hrest : 0 < rest) (hsize : (h.mem p).size = rest + nunits) (ptr : Nat) :
    Held base
      { (h.set p { h.mem p with size := rest }).set (p + 8 * rest) ⟨ptr, nunits⟩ with freep := prev }
      (P ++ p :: Q) ((p + 8 * rest, nunits) :: es) := by
  have hpl : p ∈ P ++ p :: Q := by simp
  have hbase : base ≠ p := by
    rintro rfl
    rw [hh.root] at hsize
    omega
  have hbasep := hh.base_le hpl
  obtain ⟨_, hpQ, hPp⟩ := pairwise_append.mp hh.sorted
  have hQ : ∀ a ∈ Q, p + 8 * (rest + nunits) < a := fun a ha => hsize ▸ rel_of_pairwise_cons hpQ ha
  -- the new header lies within the block, so it is none of the others
  have hother : ∀ a ∈ P ++ Q, a ≠ p ∧ a ≠ p + 8 * rest := by
    intro a ha
    refine ⟨hh.node_ne ha, ?_⟩
    rcases mem_append.mp ha with ha | ha
    · have hlt := hPp a ha p mem_cons_self
      omega
    · have hlt := hQ a ha
      omega
  have hes : ∀ e ∈ es, e.1 ≠ p ∧ e.1 ≠ p + 8 * rest := by
    intro e he
    have hdisj := hh.disjoint hpl he
    have hpos := (hh.headers e he).1
    have hin : ∀ x, p ≤ x → x < p + 8 * (rest + nunits) → e.1 ≠ x := by
      intro x hx hx' heq
      refine Set.disjoint_left.mp hdisj (mem_span.mpr ⟨hx, ?_⟩) (mem_span.mpr ⟨heq.le, by omega⟩)
      rwa [extent, hsize]
    exact ⟨hin p le_rfl (by omega), hin _ (by omega) (by omega)⟩
  have hptr : (h.mem p).ptr = first Q base := hh.ring.linked.next_eq
  generalize hH : Heap.set (h.set p { h.mem p with size := rest }) (p + 8 * rest) _ = H
  have hnew : H.mem (p + 8 * rest) = ⟨ptr, nunits⟩ := hH ▸ update_self ..
  have hp : H.mem p = { h.mem p with size := rest } :=
    hH ▸ (update_of_ne (by omega) ..).trans (update_self ..)
  have hsame : ∀ x, x ≠ p ∧ x ≠ p + 8 * rest → H.mem x = h.mem x :=
    fun x hx => hH ▸ (update_of_ne hx.2 ..).trans (update_of_ne hx.1 ..)
  refine hh.rebuild (N := []) (M := []) (hH ▸ rfl) (fun a ha => hsame a (hother a ha)) ?_
    hprev ?_ ?_ ?_ ?_ ?_ ?_
  · rw [hsame base ⟨hbase, by omega⟩]
    exact hh.root
  · simp [Linked, hp, hptr]
  · simp
  · intro a ha q hq
    have hlt := hQ q hq
    simp only [mem_singleton.mp ha, hp]
    omega
  · intro a ha _
    simpa [mem_singleton.mp ha, hp] using hrest
  · intro e he
    rcases mem_cons.mp he with rfl | he
    · exact ⟨hn, congrArg Header.size hnew⟩
    · rw [hsame e.1 (hes e he)]
      exact hh.headers e he
  · have hfront := hh.tiles.perm (perm_node _ P Q p es)
    rw [extent, hsize] at hfront
    have hsplit := (Tiles.join_iff.mpr hfront).perm (perm_middle.symm.cons _)
    simpa [extent, hp] using hsplit

/-- **The block found by `malloc`** leaves the list with the units asked for. -/
theorem take (hh : Held base h (P ++ p :: Q) es)
    (hprev : P ≠ [] → prev = P.getLastD p) (hn : 0 < nunits) (hsize : nunits ≤ (h.mem p).size) :
    ∃ q l', (h.take nunits prev p).2 = q + 8 ∧
      Held base (h.take nunits prev p).1 l' ((q, nunits) :: es) := by
  have hpl : p ∈ P ++ p :: Q := by simp
  have hbase : p ≠ base := by
    rintro rfl
    rw [hh.root] at hsize
    omega
  have hP : P ≠ [] := by
    rintro rfl
    exact hbase (Option.some.inj hh.ring.head)
  have hmem : P.getLastD p ∈ P ++ p :: Q := by
    rw [← dropLast_append_getLast hP, getLastD_concat]
    simp
  have hend : p + 8 * (h.mem p).size < 2 ^ 32 :=
    (hh.bounds (mem_append_left es (mem_map_of_mem hpl)) (hh.pos p hpl hbase)).2
  obtain rfl := hprev hP
  unfold Heap.take
  by_cases hwhole : (h.mem p).size = nunits
  · rw [if_pos hwhole]
    refine ⟨p, P ++ Q, Nat.mod_eq_of_lt (by omega), ?_⟩
    rw [← hwhole]
    exact hh.take_whole hP hbase
  · rw [if_neg hwhole]
    have hplus : plus p ((h.mem p).size - nunits) = p + 8 * ((h.mem p).size - nunits) :=
      Nat.mod_eq_of_lt (by omega)
    simp only [hplus]
    exact ⟨p + 8 * ((h.mem p).size - nunits), P ++ p :: Q, Nat.mod_eq_of_lt (by omega),
      hh.take_end hmem hn (by omega) (by omega) _⟩

/-- Only the headers of the list and of the other blocks matter. -/
theorem frame (hh : Held base h l es) (hl : ∀ a ∈ l, h'.mem a = h.mem a)
    (hes : ∀ e ∈ es, h'.mem e.1 = h.mem e.1) (hfreep : h'.freep = h.freep)
    (hregions : h'.regions = h.regions) : Held base h' l es where
  ring := ⟨hh.ring.head, hh.ring.linked.congr fun a ha => by rw [hl a ha]⟩
  sorted := hh.sorted.imp_of_mem fun ha _ hab => by rwa [hl _ ha]
  root := by
    rw [hl base (mem_of_mem_head? hh.ring.head)]
    exact hh.root
  freep := hfreep ▸ hh.freep
  pos a ha := by
    rw [hl a ha]
    exact hh.pos a ha
  headers e he := by
    rw [hes e he]
    exact hh.headers e he
  tiles := by
    have hmap : l.map h'.extent = l.map h.extent :=
      map_congr_left fun a ha => by rw [extent, extent, hl a ha]
    rw [hmap, hregions]
    exact hh.tiles
  above := hregions ▸ hh.above

/-! ### A new region -/

/-- A region that `sbrk` returned is a block that is not in the list. -/
theorem grow (hh : Held base h l es) {nu : Nat} (hnu : 0 < nu) (ha : base + 8 ≤ a)
    (hend : a + 8 * nu < 2 ^ 32) (hnew : ∀ r ∈ h.regions, a + 8 * nu ≤ r.1 ∨ r.1 + 8 * r.2 ≤ a) :
    Held base (h.withRegion a nu) l ((a, nu) :: es) := by
  have hdisj : ∀ r ∈ h.regions, Disjoint (span 8 (a, nu)) (span 8 r) := by
    intro r hr
    refine Set.disjoint_left.mpr fun x hx hx' => ?_
    have hr := hnew r hr
    simp only [mem_span] at hx hx'
    omega
  have htiles := hh.tiles.grow hdisj
  -- the header of the region is none of those in use
  have hother : ∀ e ∈ l.map h.extent ++ es, 0 < e.2 → e.1 ≠ a := by
    intro e he hpos
    exact (start_ne_of_disjoint (rel_of_pairwise_cons htiles.apart he) (by decide) hnu hpos).symm
  have hnode : ∀ x ∈ l, x ≠ a := by
    intro x hx
    by_cases hxb : x = base
    · omega
    · exact hother (h.extent x) (mem_append_left _ (mem_map_of_mem hx)) (hh.pos x hx hxb)
  have hheader : ∀ e ∈ es, e.1 ≠ a :=
    fun e he => hother e (mem_append_right _ he) (hh.headers e he).1
  have hset : Held base (h.set a { h.mem a with size := nu }) l es :=
    hh.frame (fun x hx => update_of_ne (hnode x hx) ..)
      (fun e he => update_of_ne (hheader e he) ..) rfl rfl
  exact {
    ring := hset.ring
    sorted := hset.sorted
    root := hset.root
    freep := hset.freep
    pos := hset.pos
    headers := by
      intro e he
      rcases mem_cons.mp he with rfl | he
      · exact ⟨hnu, by simp [withRegion, Heap.set]⟩
      · exact hset.headers e he
    tiles := (hset.tiles.grow hdisj).perm perm_middle.symm
    above := by
      intro r hr
      rcases mem_append.mp hr with hr | hr
      · exact hh.above r hr
      · rw [mem_singleton.mp hr]
        exact ⟨ha, hend⟩ }

/-- **`morecore`** returns 0 if `sbrk` has failed; otherwise there is a block with the units
asked for in the list. -/
theorem morecore (hh : Held base h l es) (hbase : 0 < base) {nu : Nat} {brk : Option Nat}
    (hfresh : Fresh base h (coreUnits nu) brk) :
    (brk = none ∧ h.morecore nu brk = some (h, 0)) ∨
      ∃ h' l', h.morecore nu brk = some (h', h'.freep) ∧ h'.freep ≠ 0 ∧ Held base h' l' es ∧
        ∃ y ∈ l', nu ≤ (h'.mem y).size := by
  have hcore : 0 < coreUnits nu ∧ nu ≤ coreUnits nu := by
    unfold coreUnits
    split <;> omega
  cases brk with
  | none => exact .inl ⟨rfl, rfl⟩
  | some a =>
    obtain ⟨ha, hend, hnew⟩ := hfresh
    obtain ⟨h', l', hfree, hh', y, hy, hny⟩ := (hh.grow hcore.1 ha hend hnew).free
    have hplus : plus a 1 = a + 8 := Nat.mod_eq_of_lt (by omega)
    refine .inr ⟨h', l', ?_, ?_, hh', y, hy, hcore.2.trans hny⟩
    · have hcall : h.morecore nu (some a) =
          match (h.withRegion a (coreUnits nu)).free (plus a 1) with
          | none => none
          | some h => some (h, h.freep) := rfl
      rw [hplus, hfree] at hcall
      exact hcall
    · have hle := hh'.base_le hh'.freep
      omega

/-! ### The search -/

/-- A walk of `malloc` around the list finds a block, or it is back at `freep` and there is
none. -/
theorem seek (hh : Held base h l es) (hn : 0 < nunits) :
    ∃ prev p, walk (fun p => (h.mem p).ptr) (h.Stops nunits) h.steps h.freep (h.mem h.freep).ptr =
        some (prev, p) ∧
      if nunits ≤ (h.mem p).size then
        ∃ q l', (h.take nunits prev p).2 = q + 8 ∧
          Held base (h.take nunits prev p).1 l' ((q, nunits) :: es)
      else ∀ y ∈ l, ¬ nunits ≤ (h.mem y).size := by
  have hstop : h.Stops nunits h.freep := .inr rfl
  obtain ⟨P, p, Q, prev, rfl, htest, hprev, halone, hwalk⟩ :=
    hh.ring.walk_behind hh.nodup hh.freep hstop
  refine ⟨prev, p, walk_mono hwalk hh.length_le, ?_⟩
  split
  · next hsize => exact hh.take hprev hn hsize
  next hsmall =>
  have hp : p = h.freep := htest.resolve_left hsmall
  intro y hy hbig
  have hyp := halone hp y hy (.inl hbig)
  rw [hyp, ← hp] at hbig
  exact hsmall hbig

/-- **The loop of `malloc`** ends after at most one call of `morecore`: it returns 0 where
`sbrk` has failed, and else a block of the units asked for. -/
theorem search (hh : Held base h l es) (hbase : 0 < base) (hn : 0 < nunits)
    {brk : Option Nat} (hfresh : Fresh base h (coreUnits nunits) brk) :
    ∃ h' ap, Heap.search nunits [brk] h = some (h', ap) ∧
      ((ap = 0 ∧ brk = none ∧ ∃ l', Held base h' l' es) ∨
        ∃ q l', ap = q + 8 ∧ Held base h' l' ((q, nunits) :: es)) := by
  obtain ⟨prev, p, hwalk, hfound⟩ := hh.seek hn
  rw [Heap.search]
  simp only [hwalk]
  by_cases hsize : nunits ≤ (h.mem p).size
  · rw [if_pos hsize] at hfound ⊢
    obtain ⟨q, l', hq, hl'⟩ := hfound
    exact ⟨_, _, rfl, .inr ⟨q, l', hq, hl'⟩⟩
  · rw [if_neg hsize]
    rcases hh.morecore hbase hfresh with ⟨hnone, hmore⟩ | ⟨h', l', hmore, hfreep, hh', y, hy, hbig⟩
    · simp only [hmore]
      exact ⟨h, 0, rfl, .inl ⟨rfl, hnone, l, hh⟩⟩
    simp only [hmore, if_neg hfreep]
    obtain ⟨prev', p', hwalk', hfound'⟩ := hh'.seek hn
    rw [Heap.search]
    simp only [hwalk']
    -- the new block is in the list, so the second walk finds one
    by_cases hsize' : nunits ≤ (h'.mem p').size
    · rw [if_pos hsize'] at hfound' ⊢
      obtain ⟨q, l'', hq, hl''⟩ := hfound'
      exact ⟨_, _, rfl, .inr ⟨q, l'', hq, hl''⟩⟩
    · rw [if_neg hsize'] at hfound'
      exact absurd hbig (hfound' y hy)

/-- The first call of `malloc` makes `base` the only node of the list. -/
theorem init (h : Heap) (base : Nat) (hregions : h.regions = []) :
    Held base { h.set base { ptr := base, size := 0 } with freep := base } [base] [] := by
  have hmem : (update h.mem base ⟨base, 0⟩) base = ⟨base, 0⟩ := update_self ..
  exact {
    ring := ⟨rfl, by simp [Linked, Heap.set]⟩
    sorted := pairwise_singleton ..
    root := congrArg Header.size hmem
    freep := mem_singleton_self base
    pos := fun a ha hne => absurd (mem_singleton.mp ha) hne
    headers := by simp
    tiles := ⟨by simp, by simp [Lib.span, extent, Heap.set, hregions], by simp [extent, Heap.set, hregions]⟩
    above := by simp [Heap.set, hregions] }

theorem perm (hh : Held base h l es) (hp : es.Perm es') : Held base h l es' where
  ring := hh.ring
  sorted := hh.sorted
  root := hh.root
  freep := hh.freep
  pos := hh.pos
  headers e he := hh.headers e (hp.mem_iff.mpr he)
  tiles := hh.tiles.perm (hp.append_left _)
  above := hh.above

end Held

end Heap

/-! ## Programs -/

/-- A block a program has from `malloc`: the address it was given, the bytes it asked for, and
the units of the block. -/
structure Block where
  addr : Nat
  nbytes : Nat
  units : Nat
  deriving DecidableEq, Repr

/-- The extent of a block, with its header. -/
def Block.extent (b : Block) : Nat × Nat := (b.addr - 8, b.units)

/-- The allocator and the blocks the program has. -/
structure Run where
  heap : Heap
  live : List Block

namespace Run

inductive Act where
  /-- `malloc(nbytes)`; `sbrk` returns `brk` if it is called -/
  | malloc (nbytes : UInt32) (brk : Option Nat)
  /-- `free` of a live block -/
  | free (b : Block)
  /-- the program stores into its blocks, and what would be the header at `x` changes -/
  | store (x : Nat) (hd : Header)

/-- The memory a request needs is below `2 ^ 31` bytes. -/
def Moderate (nbytes : UInt32) : Prop := ((nbytes.toNat + 8 - 1) / 8 + 1) * 8 < 2 ^ 31

instance : DecidablePred Moderate := fun _ => inferInstanceAs (Decidable (_ < _))

/-- What `sbrk` may return to a call of `malloc`. -/
abbrev Sbrk (base : Nat) (s : Run) (nbytes : UInt32) (brk : Option Nat) : Prop :=
  Heap.Fresh base s.heap (Heap.coreUnits (Heap.nunits nbytes)) brk

/-- The eight bytes at `x` meet what the program may write in its block. -/
def Writes (s : Run) (x : Nat) : Prop :=
  ∃ b ∈ s.live, 1 < b.units ∧ b.addr < x + 8 ∧ x < b.addr + 8 * (b.units - 1)

instance (s : Run) (x : Nat) : Decidable (s.Writes x) := inferInstanceAs (Decidable (∃ b ∈ _, _))

def next (base : Nat) (s : Run) : Act → Option Run
  | .malloc nbytes brk =>
    if Moderate nbytes ∧ s.Sbrk base nbytes brk then
      match s.heap.malloc base nbytes [brk] with
      | none => none
      | some (h, ap) =>
        some {
          heap := h
          live := if ap = 0 then s.live else
            { addr := ap, nbytes := nbytes.toNat, units := Heap.nunits nbytes } :: s.live }
    else none
  | .free b =>
    if b ∈ s.live then
      match s.heap.free b.addr with
      | none => none
      | some h => some { heap := h, live := s.live.erase b }
    else none
  | .store x hd => if s.Writes x then some { s with heap := s.heap.set x hd } else none

/-- The program begins: `freep` is null. -/
structure Started (s : Run) : Prop where
  freep : s.heap.freep = 0
  regions : s.heap.regions = []
  live : s.live = []

abbrev Reachable (base : Nat) : Run → Prop := Reach Started (next base) fun _ _ => True

/-- The free list is a ring in address order without blocks that touch, free and live blocks are
the regions from `sbrk` cut up, and a live block has the bytes that were asked for. -/
structure Kept (base : Nat) (s : Run) : Prop where
  list : (s.heap.freep = 0 ∧ s.heap.regions = [] ∧ s.live = []) ∨
    ∃ l, Heap.Held base s.heap l (s.live.map Block.extent)
  spans : ∀ b ∈ s.live, 8 ≤ b.addr ∧ b.nbytes ≤ 8 * (b.units - 1)

/-- The heap of a program is kept well, and the loops of `free` and `malloc` end. -/
structure WellKept (base : Nat) (s : Run) : Prop extends Kept base s where
  frees : ∀ b ∈ s.live, ∃ h, s.heap.free b.addr = some h
  mallocs : ∀ nbytes brk, Moderate nbytes → s.Sbrk base nbytes brk →
    ∃ r, s.heap.malloc base nbytes [brk] = some r

variable {base : Nat} {s s' : Run}

theorem Kept.begins (hk : Kept base s) (hbase : 0 < base) :
    ∃ h l, (∀ nbytes brks, s.heap.malloc base nbytes brks = Heap.search (Heap.nunits nbytes) brks h) ∧
      h.regions = s.heap.regions ∧ Heap.Held base h l (s.live.map Block.extent) := by
  rcases hk.list with ⟨hfreep, hregions, hlive⟩ | ⟨l, hh⟩
  · refine ⟨{ s.heap.set base { ptr := base, size := 0 } with freep := base }, [base],
      fun nbytes brks => by rw [Heap.malloc, if_pos hfreep], rfl, ?_⟩
    rw [hlive]
    exact Heap.Held.init s.heap base hregions
  · have hfreep : s.heap.freep ≠ 0 := by
      have hle := hh.base_le hh.freep
      omega
    exact ⟨_, l, fun nbytes brks => by rw [Heap.malloc, if_neg hfreep], rfl, hh⟩

/-- **`malloc`** returns 0, where `sbrk` has failed, or a block of the units asked for. -/
theorem Kept.malloc_ok (hk : Kept base s) (hbase : 0 < base) {nbytes : UInt32} {brk : Option Nat}
    (hbrk : s.Sbrk base nbytes brk) :
    ∃ h ap, s.heap.malloc base nbytes [brk] = some (h, ap) ∧
      ((ap = 0 ∧ brk = none ∧ ∃ l, Heap.Held base h l (s.live.map Block.extent)) ∨
        ∃ q l, ap = q + 8 ∧
          Heap.Held base h l ((q, Heap.nunits nbytes) :: s.live.map Block.extent)) := by
  obtain ⟨h, l, hmalloc, hregions, hh⟩ := hk.begins hbase
  have hfresh : Heap.Fresh base h (Heap.coreUnits (Heap.nunits nbytes)) brk := by
    unfold Sbrk at hbrk
    cases brk with
    | none => trivial
    | some a =>
      unfold Heap.Fresh at hbrk ⊢
      rwa [hregions]
  rw [hmalloc]
  exact hh.search hbase (Nat.succ_pos _) hfresh

variable {l : List Nat} {b : Block}

theorem free_ok (hh : Heap.Held base s.heap l (s.live.map Block.extent))
    (hb : b ∈ s.live) (haddr : 8 ≤ b.addr) :
    ∃ h l', s.heap.free b.addr = some h ∧
      Heap.Held base h l' ((s.live.erase b).map Block.extent) := by
  have hperm : (s.live.map Block.extent).Perm (b.extent :: (s.live.erase b).map Block.extent) :=
    (perm_cons_erase hb).map Block.extent
  obtain ⟨h, l', hfree, hh', _⟩ := (hh.perm hperm).free
  rw [Nat.sub_add_cancel haddr] at hfree
  exact ⟨h, l', hfree, hh'⟩

/-- What a program writes in its blocks is no header in use. -/
theorem store_ok (hh : Heap.Held base s.heap l (s.live.map Block.extent))
    (haddr : ∀ b ∈ s.live, 8 ≤ b.addr) {x : Nat} (hx : s.Writes x) (hd : Header) :
    Heap.Held base (s.heap.set x hd) l (s.live.map Block.extent) := by
  obtain ⟨b, hb, hunits, hlo, hhi⟩ := hx
  have haddr := haddr b hb
  have hmem : b.extent ∈ s.live.map Block.extent := mem_map_of_mem hb
  -- a header at `x` and the block `b` would have a byte in common
  have hcommon : ∀ e : Nat × Nat, 0 < e.2 → e.1 = x →
      ¬ Disjoint (span 8 e) (span 8 b.extent) := by
    intro e hpos hex hdisj
    have hbyte : max x b.addr ∈ span 8 e := mem_span.mpr ⟨by omega, by omega⟩
    refine Set.disjoint_left.mp hdisj hbyte (mem_span.mpr ?_)
    simp only [Block.extent]
    omega
  refine hh.frame (fun a ha => update_of_ne ?_ ..) (fun e he => update_of_ne ?_ ..)
    rfl rfl
  · rintro rfl
    by_cases hbase : a = base
    · have hlow := (hh.outside hmem).1
      have hbound := (hh.bounds (mem_append_right _ hmem) (hh.headers _ hmem).1).1
      simp only [Block.extent] at hbound
      omega
    · exact hcommon (s.heap.extent a) (hh.pos a ha hbase) rfl (hh.disjoint ha hmem)
  · intro hex
    have hapart := (pairwise_append.mp hh.tiles.apart).2.1
    by_cases heb : e = b.extent
    · rw [heb, Block.extent] at hex
      omega
    · have hsymm : Std.Symm fun e e' : Nat × Nat => Disjoint (span 8 e) (span 8 e') :=
        ⟨fun _ _ h => h.symm⟩
      exact hcommon e (hh.headers e he).1 hex (hapart.forall he hmem heb)

theorem Started.kept (h : Started s) : Kept base s where
  list := .inl ⟨h.freep, h.regions, h.live⟩
  spans := by simp [h.live]

theorem Kept.held (hk : Kept base s) (hb : b ∈ s.live) :
    ∃ l, Heap.Held base s.heap l (s.live.map Block.extent) := by
  rcases hk.list with ⟨_, _, hlive⟩ | hheld
  · rw [hlive] at hb
    contradiction
  · exact hheld

theorem le_nunits {nbytes : UInt32} (h : Moderate nbytes) :
    nbytes.toNat ≤ 8 * (Heap.nunits nbytes - 1) := by
  unfold Moderate at h
  have hexact : uint (nbytes.toNat + 8 - 1) = nbytes.toNat + 8 - 1 := Nat.mod_eq_of_lt (by omega)
  rw [Heap.nunits, hexact]
  omega

theorem Kept.next (hk : Kept base s) (hbase : 0 < base) {a : Act}
    (hnext : s.next base a = some s') :
    Kept base s' := by
  cases a with
  | malloc nbytes brk =>
    simp only [Run.next] at hnext
    split at hnext
    · next hreq =>
      obtain ⟨h, ap, hmalloc, hres⟩ := hk.malloc_ok hbase hreq.2
      rw [hmalloc] at hnext
      cases hnext
      rcases hres with ⟨rfl, _, l, hh⟩ | ⟨q, l, rfl, hh⟩
      · exact ⟨.inr ⟨l, hh⟩, hk.spans⟩
      · rw [if_neg (Nat.succ_ne_zero _)]
        refine ⟨.inr ⟨l, hh⟩, forall_mem_cons.mpr ⟨?_, hk.spans⟩⟩
        exact ⟨Nat.le_add_left .., le_nunits hreq.1⟩
    · contradiction
  | free b =>
    simp only [Run.next] at hnext
    split at hnext
    · next hb =>
      obtain ⟨l, hh⟩ := hk.held hb
      obtain ⟨h, l', hfree, hh'⟩ := free_ok hh hb (hk.spans b hb).1
      rw [hfree] at hnext
      cases hnext
      exact ⟨.inr ⟨l', hh'⟩, fun c hc => hk.spans c (mem_of_mem_erase hc)⟩
    · contradiction
  | store x hd =>
    simp only [Run.next] at hnext
    split at hnext
    · next hx =>
      cases hnext
      obtain ⟨b, hb, _⟩ := id hx
      obtain ⟨l, hh⟩ := hk.held hb
      exact ⟨.inr ⟨l, store_ok hh (fun c hc => (hk.spans c hc).1) hx hd⟩, hk.spans⟩
    · contradiction

theorem kept_of_reachable (hbase : 0 < base) (h : Reachable base s) : Kept base s :=
  h.inv (Kept base) (fun _ => Started.kept) fun _ _ _ hk _ hnext => hk.next hbase hnext

/-- **The heap of a program is well kept** after any sequence of calls of `malloc` and `free`,
with stores into live blocks in between. -/
theorem wellKept_of_reachable (hbase : 0 < base) (h : Reachable base s) : WellKept base s := by
  have hk := kept_of_reachable hbase h
  exact {
    toKept := hk
    frees := fun b hb => by
      obtain ⟨l, hh⟩ := hk.held hb
      obtain ⟨h', _, hfree, _⟩ := free_ok hh hb (hk.spans b hb).1
      exact ⟨h', hfree⟩
    mallocs := fun nbytes brk _ hbrk => by
      obtain ⟨h', ap, hmalloc, _⟩ := hk.malloc_ok hbase hbrk
      exact ⟨_, hmalloc⟩ }

/-- A program that has not called `malloc` yet. -/
def fresh : Run where
  heap := { mem := fun _ => ⟨0, 0⟩, freep := 0, regions := [] }
  live := []

/-- Two blocks from one region; the first is given back, and is the one that a
further `malloc(10)` returns. -/
theorem exists_two : ∃ s, Reachable 4096 s ∧ s.live = [⟨69504, 100, 14⟩] ∧
    (s.heap.malloc 4096 10 [none]).map Prod.snd = some 69616 :=
  Reach.exists_of_run (.start ⟨rfl, rfl, rfl⟩ : Reachable 4096 fresh)
    [.malloc 10 (some 36864), .malloc 100 none, .free ⟨69616, 10, 3⟩] (by decide +kernel)

theorem wellKept_of_reachable_two : ∃ s, s.live = [⟨69504, 100, 14⟩] ∧ WellKept 4096 s := by
  obtain ⟨s, hreach, hlive, -⟩ := exists_two
  exact ⟨s, hlive, wellKept_of_reachable (by decide) hreach⟩

/-! ### Large requests -/

/-- The argument of `sbrk` in `morecore`: `nu * sizeof(Header)` passed as an `int`. -/
def sbrkArg (nbytes : UInt32) : Int :=
  (Int32.ofNat (8 * Heap.coreUnits (Heap.nunits nbytes))).toInt

/-- `malloc` is honest: the number of units and the request to `sbrk` are the exact ones, and the
block it returns, if it returns one, has the bytes asked for and lies in the regions obtained. -/
structure Honest (base : Nat) (s : Run) (nbytes : UInt32) : Prop where
  units : Heap.nunits nbytes = (nbytes.toNat + 8 - 1) / 8 + 1
  request : sbrkArg nbytes = 8 * Heap.coreUnits (Heap.nunits nbytes)
  result : ∀ brk, s.Sbrk base nbytes brk → ∃ h ap, s.heap.malloc base nbytes [brk] = some (h, ap) ∧
    (ap = 0 ∨ ∃ n, nbytes.toNat ≤ 8 * n ∧ ∀ x, ap ≤ x → x < ap + 8 * n → ∃ r ∈ h.regions, x ∈ span 8 r)

/-- **`malloc` is honest exactly for requests below `2 ^ 31` bytes**, with the header, in every
heap a program can have. -/
theorem honest_iff (hbase : 0 < base) (h : Reachable base s) (nbytes : UInt32) :
    Honest base s nbytes ↔ Moderate nbytes := by
  have hk : Kept base s := kept_of_reachable hbase h
  constructor
  · rintro ⟨hunits, hrequest, -⟩
    have hlt := Int32.toInt_lt (Int32.ofNat (8 * Heap.coreUnits (Heap.nunits nbytes)))
    rw [sbrkArg] at hrequest
    rw [hrequest, hunits] at hlt
    unfold Heap.coreUnits at hlt
    unfold Moderate
    split at hlt <;> omega
  · intro hm
    have hunits : Heap.nunits nbytes = (nbytes.toNat + 8 - 1) / 8 + 1 := by
      unfold Moderate at hm
      rw [Heap.nunits, show uint (nbytes.toNat + 8 - 1) = _ from Nat.mod_eq_of_lt (by omega)]
    have hcore : 8 * Heap.coreUnits (Heap.nunits nbytes) < 2 ^ 31 := by
      rw [hunits, Heap.coreUnits]
      unfold Moderate at hm
      split <;> omega
    refine ⟨hunits, ?_, fun brk hbrk => ?_⟩
    · rw [sbrkArg, Int32.toInt_ofNat_of_lt hcore]
      norm_num
    · obtain ⟨h', ap, hmalloc, ⟨hzero, -⟩ | ⟨q, l, rfl, hh⟩⟩ := hk.malloc_ok hbase hbrk
      · exact ⟨h', ap, hmalloc, .inl hzero⟩
      · refine ⟨h', _, hmalloc, .inr ⟨Heap.nunits nbytes - 1, le_nunits hm, fun x hlo hhi => ?_⟩⟩
        refine (hh.tiles.covers x).mp ⟨(q, Heap.nunits nbytes), by simp, mem_span.mpr ?_⟩
        simp only
        omega

/-- The sum wraps around for the largest request: the block has no byte for the program.  From
`2 ^ 31 - 15` on the request to `sbrk` is negative. -/
theorem not_honest_largest : ¬ Honest 4096 fresh 4294967295 ∧
    (fresh.heap.malloc 4096 4294967295 [some 36864]).map Prod.snd = some 69632 ∧
    Heap.nunits 4294967295 = 1 ∧ sbrkArg 2147483633 = -2147483648 := by
  refine ⟨fun h => absurd h.units (by decide), by decide +kernel, by decide, by decide⟩

/-- With a block that is live and one that was given back. -/
theorem honest_two : ∃ s, Reachable 4096 s ∧ s.live = [⟨69504, 100, 14⟩] ∧
    (s.heap.malloc 4096 10 [none]).map Prod.snd = some 69616 ∧ Honest 4096 s 10 ∧
    Honest 4096 s 2147483632 ∧ ¬ Honest 4096 s 2147483633 := by
  obtain ⟨s, hreach, hlive, hmalloc⟩ := exists_two
  have hiff := honest_iff (by decide) hreach
  exact ⟨s, hreach, hlive, hmalloc, (hiff 10).mpr (by decide), (hiff 2147483632).mpr (by decide),
    mt (hiff 2147483633).mp (by decide)⟩

end Run
end Xv6.Umalloc
