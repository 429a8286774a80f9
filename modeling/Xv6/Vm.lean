import Xv6.Lib.Except
import Xv6.Proc

/-!
# Xv6.Vm

User memory (`vm.c`, `kalloc.c`): two-level page tables and the list of free
pages.

Addresses are the C `uint`s as `Nat`s below `2 ^ 32`; a sum that can pass
`2 ^ 32` is reduced explicitly.  A page table is the function it denotes; the
pages that hold tables and directories are kept for the free list.  Of the kernel
half of a directory only the pages are recorded.
-/

namespace Xv6

open Lib

/-! ## Addresses -/

/-- C arithmetic on `uint` -/
def uint (n : Nat) : Nat := n % 2 ^ 32

/-- `PGROUNDUP(sz)` -/
def pgRoundUp (sz : Nat) : Nat := uint (sz + (PGSIZE - 1)) / PGSIZE * PGSIZE

/-- `PDX(va)` -/
def pdx (va : Nat) : Nat := va / 2 ^ 22 % 1024

/-- `PTX(va)` -/
def ptx (va : Nat) : Nat := va / 2 ^ 12 % 1024

/-! ## Page tables -/

/-- A present page table entry: its page and its `PTE_W` and `PTE_U` bits. -/
structure Pte where
  frame : Frame
  writable : Bool
  user : Bool
  deriving DecidableEq, Repr

/-- A page table: the page that holds it and its present entries by `PTX`. -/
structure PgTab where
  frame : Frame
  entry : Nat → Option Pte

/-- A page directory: the page that holds it, the pages of the kernel half's
tables, and the tables of the user half by `PDX`. -/
structure PgDir where
  frame : Frame
  kern : List Frame
  table : Nat → Option PgTab

namespace PgDir

/-- The entry for `va`, if its table exists and the entry is present. -/
def lookup (d : PgDir) (va : Nat) : Option Pte :=
  match d.table (pdx va) with
  | some tab => tab.entry (ptx va)
  | none => none

/-- `PTE_P` for the page of `va`. -/
def Present (d : PgDir) (va : Nat) : Prop := (d.lookup va).isSome

instance (d : PgDir) (va : Nat) : Decidable (d.Present va) :=
  inferInstanceAs (Decidable ((d.lookup va).isSome = true))

/-- Write the entry for `va` in the table `tab`. -/
def setEntry (d : PgDir) (tab : PgTab) (va : Nat) (e : Option Pte) : PgDir :=
  { d with
    table := Function.update d.table (pdx va)
      (some { tab with entry := Function.update tab.entry (ptx va) e }) }

end PgDir

/-! ## Mapping -/

/-- `mappages(pgdir, a, PGSIZE, pa, perm)` for a page-aligned `a`: `none` when
there is no page for a missing page table. -/
def mappages (d : PgDir) (free : List Frame) (a : Nat) (e : Pte) :
    Except Panic (Option (PgDir × List Frame)) :=
  match d.table (pdx a) with
  | some tab =>
    if (tab.entry (ptx a)).isSome then .error .remap
    else .ok (some (d.setEntry tab a (some e), free))
  | none =>
    match free with
    | [] => .ok none
    | f :: free => .ok (some (d.setEntry { frame := f, entry := fun _ => none } a (some e), free))

/-- The kernel half has 56 tables below `PHYSTOP` and 8 from `DEVSPACE` on. -/
def kernTables : Nat := 64

/-- `setupkvm()`: a directory with the kernel mappings only.  When the pages
run out on the way, those already taken are not given back. -/
def setupkvm : List Frame → Option PgDir × List Frame
  | [] => (none, [])
  | f :: free =>
    if kernTables ≤ free.length then
      (some { frame := f, kern := free.take kernTables, table := fun _ => none },
        free.drop kernTables)
    else (none, [])

/-- `clearpteu(pgdir, uva)` -/
def clearpteu (d : PgDir) (uva : Nat) : Except Panic PgDir :=
  match d.table (pdx uva) with
  | some tab =>
    .ok (d.setEntry tab uva ((tab.entry (ptx uva)).map fun e => { e with user := false }))
  | none => .error .clearpteu

/-! ## Growing and shrinking -/

/-- The loop of `deallocuvm`, with `a` the next address to look at: a missing
page table is skipped as a whole. -/
def deallocuvmLoop (oldsz : Nat) :
    Nat → PgDir → List Frame → Nat → Except Panic (PgDir × List Frame)
  | 0, d, free, _ => .ok (d, free)
  | fuel + 1, d, free, a =>
    if a < oldsz then
      match d.table (pdx a) with
      | none => deallocuvmLoop oldsz fuel d free ((pdx a + 1) * 2 ^ 22)
      | some tab =>
        match tab.entry (ptx a) with
        | none => deallocuvmLoop oldsz fuel d free (a + PGSIZE)
        | some e =>
          if e.frame = 0 then .error .kfree
          else
            deallocuvmLoop oldsz fuel (d.setEntry tab a none) (e.frame :: free) (a + PGSIZE)
    else .ok (d, free)

/-- `deallocuvm(pgdir, oldsz, newsz)`, with its return value. -/
def deallocuvm (d : PgDir) (free : List Frame) (oldsz newsz : Nat) :
    Except Panic (PgDir × List Frame × Nat) :=
  if newsz ≥ oldsz then .ok (d, free, oldsz)
  else do
    let (d, free) ← deallocuvmLoop oldsz (oldsz / PGSIZE + 1) d free (pgRoundUp newsz)
    return (d, free, newsz)

/-- The loop of `allocuvm`, with `a` the next page to map.  When the pages run
out, everything from `oldsz` to `newsz` is unmapped again. -/
def allocuvmLoop (oldsz newsz : Nat) :
    Nat → PgDir → List Frame → Nat → Except Panic (PgDir × List Frame × Nat)
  | 0, d, free, _ => .ok (d, free, newsz)
  | fuel + 1, d, free, a =>
    if a < newsz then
      match free with
      | [] => do
        let (d, free, _) ← deallocuvm d [] newsz oldsz
        return (d, free, 0)
      | mem :: free => do
        match ← mappages d free a { frame := mem, writable := true, user := true } with
        | none => do
          let (d, free, _) ← deallocuvm d free newsz oldsz
          return (d, mem :: free, 0)
        | some (d, free) => allocuvmLoop oldsz newsz fuel d free (a + PGSIZE)
    else .ok (d, free, newsz)

/-- `allocuvm(pgdir, oldsz, newsz)`, with its return value: the new size, or 0
on error. -/
def allocuvm (d : PgDir) (free : List Frame) (oldsz newsz : Nat) :
    Except Panic (PgDir × List Frame × Nat) :=
  if newsz ≥ KERNBASE then .ok (d, free, 0)
  else if newsz < oldsz then .ok (d, free, oldsz)
  else allocuvmLoop oldsz newsz (newsz / PGSIZE + 1) d free (pgRoundUp oldsz)

/-- `freevm(pgdir)`: every user page, every page table and the directory go
back to the free list. -/
def freevm (d : PgDir) (free : List Frame) : Except Panic (List Frame) := do
  let (d, free, _) ← deallocuvm d free KERNBASE 0
  let tables := (List.range 512).filterMap fun i => (d.table i).map PgTab.frame
  return d.frame :: (d.kern.reverse ++ (tables.reverse ++ free))

/-- The loop of `copyuvm`, with `i` the next address to copy: `none` when the
pages run out.  A page whose mapping fails is not given back. -/
def copyuvmLoop (src : PgDir) (sz : Nat) :
    Nat → PgDir → List Frame → Nat → Except Panic (Option PgDir × PgDir × List Frame)
  | 0, d, free, _ => .ok (some d, d, free)
  | fuel + 1, d, free, i =>
    if i < sz then
      match src.table (pdx i) with
      | none => .error .copyuvmPte
      | some tab =>
        match tab.entry (ptx i) with
        | none => .error .copyuvmPage
        | some e =>
          match free with
          | [] => .ok (none, d, [])
          | mem :: free => do
            match ← mappages d free i { e with frame := mem } with
            | none => return (none, d, free)
            | some (d, free) => copyuvmLoop src sz fuel d free (i + PGSIZE)
    else .ok (some d, d, free)

/-- `copyuvm(pgdir, sz)`: `none` on failure. -/
def copyuvm (src : PgDir) (sz : Nat) (free : List Frame) :
    Except Panic (Option PgDir × List Frame) :=
  match setupkvm free with
  | (none, free) => .ok (none, free)
  | (some d, free) => do
    match ← copyuvmLoop src sz (sz / PGSIZE + 1) d free 0 with
    | (some d, _, free) => return (some d, free)
    | (none, d, free) => do
      let free ← freevm d free
      return (none, free)

end Xv6
