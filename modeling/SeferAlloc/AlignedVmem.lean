import Mathlib.Data.Nat.Bitwise
import SeferAlloc.ResourceLedger
import SeferAlloc.SegmentLayout

/-!
# Aligned reservations of address space

The OS hands out mappings at addresses of its own choice. A reservation of a
multiple of `align` tries the cheap requests first, tests what it was given,
gives back what does not fit, and ends with a request `align` bytes longer,
inside which there always is room. `none` is a release of what is not mapped,
or a commit outside every mapping; the code never gets there.
-/
namespace SeferAlloc
namespace AlignedVmem

/-- The bits of `usize`, `HUGE_SUPPORTED`, and the page size the OS reports. -/
structure Target where
  bits : ℕ
  hugeSupported : Bool
  queriedPageSize : ℕ

inductive VmemError where
  | invalidArgument
  | osRefusal
  | osRefusalUnknownCode
deriving DecidableEq

/-- The smallest page a host has. -/
def page : ℕ := 1 <<< 12

/-- The span a transparent huge page covers. -/
def linuxHugePageSize : ℕ := 2 * 1024 * 1024

/-- What Windows rounds a reservation's base up to. -/
def winAllocationGranularity : ℕ := 65536

/-- How often a lost race for an aligned place is tried again. -/
def rereserveTries : ℕ := 4

namespace Target

def usizeMax (t : Target) : ℕ := 2 ^ t.bits - 1

def isizeMax (t : Target) : ℕ := 2 ^ (t.bits - 1) - 1

def checkedAdd (t : Target) (a b : ℕ) : Option ℕ :=
  if a + b ≤ t.usizeMax then some (a + b) else none

def checkedSub (a b : ℕ) : Option ℕ := if b ≤ a then some (a - b) else none

/-- `x & !(align - 1)`: the largest multiple of `align` not above `x`. -/
def clearBelow (t : Target) (x align : ℕ) : ℕ := x &&& (t.usizeMax ^^^ (align - 1))

def alignUpAddr (t : Target) (addr align : ℕ) : Option ℕ :=
  (t.checkedAdd addr (align - 1)).map fun sum => t.clearBelow sum align

/-- What the system reports, if it is a power of two of at least a page; else a page. -/
def validatePageSizeImpl (queried : ℕ) : ℕ :=
  if page ≤ queried ∧ queried.isPowerOfTwo then queried else page

/-- `page_size_or_poison`; `none` is `PAGE_SIZE_QUERY_FAILED`. -/
def pageSizeOrPoison (t : Target) : Option ℕ :=
  if validatePageSizeImpl t.queriedPageSize = t.queriedPageSize then some t.queriedPageSize
  else none

/-- The page size in use, a poisoned answer read as a page. -/
def pageSize (t : Target) : ℕ := t.pageSizeOrPoison.getD page

def validateSizeAlign (t : Target) (size align : ℕ) : Except VmemError Unit :=
  if size = 0 ∨ ¬align.isPowerOfTwo ∨ align < page ∨ ¬page ∣ size then .error .invalidArgument
  else
    match t.checkedAdd size align with
    | none => .error .invalidArgument
    | some sum => if t.isizeMax < sum then .error .invalidArgument else .ok ()

def validateInitialCommit (t : Target) (initialCommit size : ℕ) : Except VmemError Unit :=
  match t.pageSizeOrPoison with
  | none => .error .osRefusalUnknownCode
  | some ps =>
      if initialCommit = 0 ∨ ¬ps ∣ initialCommit ∨ ¬ps ∣ size ∨ size < initialCommit then
        .error .invalidArgument
      else .ok ()

/-- The aligned base inside a region, if it has room for `size` bytes there. -/
def fits (t : Target) (region overLen size align : ℕ) : Option ℕ := do
  let a ← t.alignUpAddr region align
  let stop ← t.checkedAdd a size
  let regionEnd ← t.checkedAdd region overLen
  if stop ≤ regionEnd then some a else none

end Target

/-! ## The operating system -/

structure Mapping where
  addr : ℕ
  len : ℕ
  huge : Bool
deriving DecidableEq

/-- The mappings of the process, and how often it called the OS. -/
structure World where
  calls : ℕ
  mappings : ResourceLedger Mapping

namespace World

def called (w : World) : World := { w with calls := w.calls + 1 }

def obtain (w : World) (m : Mapping) : World := { w with mappings := w.mappings.obtain m }

def release (w : World) (p : Mapping → Bool) : Option World :=
  (w.mappings.release p).map fun L => { w with mappings := L }

end World

/-- What `mmap` answers to each call. A region is page-aligned and ends below the top of the
address space; `usize::MAX` is `MAP_FAILED`. -/
structure Unix (t : Target) where
  mmap : ℕ → ℕ → Bool → ℕ
  placed : ∀ n len huge, mmap n len huge ≠ t.usizeMax →
    page ∣ mmap n len huge ∧ mmap n len huge + len ≤ t.usizeMax

structure AllocationType where
  reserve : Bool
  commit : Bool
  largePages : Bool

/-- What `VirtualAlloc` answers to each call; `0` is a refusal. -/
structure Windows (t : Target) where
  virtualAlloc : ℕ → ℕ → ℕ → AllocationType → ℕ
  largePageMinimum : ℕ
  placed : ∀ n addr len kind, kind.reserve = true → virtualAlloc n addr len kind ≠ 0 →
    page ∣ virtualAlloc n addr len kind ∧ virtualAlloc n addr len kind + len ≤ t.usizeMax

/-- A reservation before it is packed: `(base, reservation, reservation_len, granted_huge)`. -/
structure RawReservation where
  base : ℕ
  reservation : ℕ
  reservationLen : ℕ
  grantedHuge : Bool
deriving DecidableEq

variable {t : Target}

/-! ## Unix -/

/-- `libc_munmap`; huge pages are unmapped in whole huge pages. -/
def libcMunmap (addr len : ℕ) (w : World) : Option World :=
  w.release fun m => m.addr = addr ∧ m.len = len ∧ (m.huge = true → linuxHugePageSize ∣ len)

namespace Unix

/-- `libc_mmap`; a mapping at address zero is given back. -/
def libcMmap (os : Unix t) (len : ℕ) (huge : Bool) (w : World) :
    Option (Except VmemError ℕ × World) :=
  let flag := t.hugeSupported && huge
  let p := os.mmap w.calls len flag
  if p = t.usizeMax then some (.error .osRefusal, w.called)
  else
    let w := w.called.obtain ⟨p, len, flag⟩
    if p = 0 then (libcMunmap p len w).map fun w => (.error .osRefusalUnknownCode, w)
    else some (.ok p, w)

/-- The exact-size huge-page path of `unix_reserve`. -/
def hugeExact (os : Unix t) (size align : ℕ) (w : World) :
    Option (Option RawReservation × World) := do
  let (answer, w) ← os.libcMmap size true w
  match answer with
  | .ok p =>
      if align ∣ p then return (some ⟨p, p, size, true⟩, w)
      else return (none, ← libcMunmap p size w)
  | .error _ => return (none, w)

def tryReserveAlignedExact (os : Unix t) (size align : ℕ) (huge : Bool) (w : World) :
    Option (Except VmemError RawReservation × World) := do
  let (answer, w) ← os.libcMmap size huge w
  match answer with
  | .ok p =>
      if ¬align ∣ p then return (.error .invalidArgument, ← libcMunmap p size w)
      else return (.ok ⟨p, p, size, t.hugeSupported && huge⟩, w)
  | .error e => return (.error e, w)

/-- The mapping of `overLen` bytes, of ordinary pages if there are no huge ones. -/
def overRegion (os : Unix t) (overLen : ℕ) (huge : Bool) (w : World) :
    Option (Except VmemError (ℕ × Bool) × World) := do
  let (answer, w) ← os.libcMmap overLen huge w
  match answer with
  | .ok p => return (.ok (p, t.hugeSupported && huge), w)
  | .error e =>
      if huge = false then return (.error e, w)
      else
        let (retried, w) ← os.libcMmap overLen false w
        return (retried.map fun p => (p, false), w)

/-- The over-reserve path of `unix_reserve`. -/
def overReserve (os : Unix t) (size align : ℕ) (huge : Bool) (w : World) :
    Option (Except VmemError RawReservation × World) :=
  match t.checkedAdd size align with
  | none => some (.error .invalidArgument, w)
  | some overLen => do
      let (answer, w) ← os.overRegion overLen huge w
      match answer with
      | .error e => return (.error e, w)
      | .ok (region, grantedHuge) =>
          match t.fits region overLen size align with
          | some base => return (.ok ⟨base, region, overLen, grantedHuge⟩, w)
          | none => return (.error .invalidArgument, ← libcMunmap region overLen w)

/-- The exact-size path for huge pages, where it is tried. -/
def hugePath (os : Unix t) (size align : ℕ) (huge : Bool) (w : World) :
    Option (Option RawReservation × World) :=
  if huge = true ∧ align = linuxHugePageSize then os.hugeExact size align w else some (none, w)

/-- The exact-size path of targets of 32 bits, where the first one was not tried. -/
def exactPath (os : Unix t) (size align : ℕ) (huge hugeExactTried : Bool) (w : World) :
    Option (Option RawReservation × World) :=
  if t.bits = 32 ∧ hugeExactTried = false then
    (os.tryReserveAlignedExact size align huge w).map fun p => (p.1.toOption, p.2)
  else some (none, w)

def unixReserve (os : Unix t) (size align : ℕ) (huge : Bool) (w : World) :
    Option (Except VmemError RawReservation × World) :=
  let huge' := t.hugeSupported && huge
  if huge' = true ∧ (¬linuxHugePageSize ∣ size ∨ ¬linuxHugePageSize ∣ align) then
    some (.error .invalidArgument, w)
  else do
    let (hit, w) ← os.hugePath size align huge' w
    match hit with
    | some raw => return (.ok raw, w)
    | none =>
        let (hit, w) ← os.exactPath size align huge (huge' && align == linuxHugePageSize) w
        match hit with
        | some raw => return (.ok raw, w)
        | none => os.overReserve size align huge w

end Unix

/-! ## Windows -/

/-- Gives back the reservation that starts exactly at `addr`. -/
def virtualRelease (addr : ℕ) (w : World) : Option World := w.release fun m => m.addr = addr

namespace Windows

/-- `VirtualAlloc` with `MEM_RESERVE`. -/
def allocate (os : Windows t) (addr len : ℕ) (commit largePages : Bool) (w : World) :
    Option ℕ × World :=
  let p := os.virtualAlloc w.calls addr len ⟨true, commit, largePages⟩
  if p = 0 then (none, w.called) else (some p, w.called.obtain ⟨p, len, largePages⟩)

/-- `VirtualAlloc` with `MEM_COMMIT` alone, inside a mapping. -/
def commit (os : Windows t) (addr len : ℕ) (w : World) : Option (Bool × World) :=
  if ∃ e ∈ w.mappings.live, e.2.addr ≤ addr ∧ addr + len ≤ e.2.addr + e.2.len then
    some (os.virtualAlloc w.calls addr len ⟨false, true, false⟩ ≠ 0, w.called)
  else none

/-- The single-call path; `none` inside falls through to the next one. -/
def singleCall (os : Windows t) (align commitLen : ℕ) (large : Bool) (w : World) :
    Option (Option (Except VmemError RawReservation) × World) :=
  let (first, w) := os.allocate 0 commitLen true large w
  let (base, hugeGranted, w) : Option ℕ × Bool × World :=
    match first with
    | some p => (some p, large, w)
    | none =>
        if large then
          let (plain, w) := os.allocate 0 commitLen true false w
          (plain, false, w)
        else (none, large, w)
  match base with
  | none => some (some (.error .osRefusal), w)
  | some base =>
      if align ∣ base then some (some (.ok ⟨base, base, commitLen, hugeGranted⟩), w)
      else (virtualRelease base w).map fun w => (none, w)

/-- The probe for an aligned address, released before the span is reserved there. -/
def reReserve (os : Windows t) (size align overLen : ℕ) :
    ℕ → World → Option (Option RawReservation × World)
  | 0, w => some (none, w)
  | tries + 1, w =>
      match os.allocate 0 overLen false false w with
      | (none, w) => some (none, w)
      | (some probe, w) =>
          match t.alignUpAddr probe align with
          | none => (virtualRelease probe w).map fun w => (none, w)
          | some target => do
              let w ← virtualRelease probe w
              match os.allocate target size true false w with
              | (none, w) => reReserve os size align overLen tries w
              | (some base, w) =>
                  if base = target then return (some ⟨base, base, size, false⟩, w)
                  else reReserve os size align overLen tries (← virtualRelease base w)

/-- The region of `size + align` bytes. -/
def overRegion (os : Windows t) (size align : ℕ) (w : World) : Except VmemError (ℕ × ℕ) × World :=
  match t.checkedAdd size align with
  | none => (.error .invalidArgument, w)
  | some overLen =>
      match os.allocate 0 overLen false false w with
      | (none, w) => (.error .osRefusal, w)
      | (some region, w) => (.ok (region, overLen), w)

/-- The region of the two-call path, and its length. -/
def reserveRegion (os : Windows t) (size align : ℕ) (w : World) :
    Option (Except VmemError (ℕ × ℕ) × World) :=
  if align ≤ winAllocationGranularity then
    match os.allocate 0 size false false w with
    | (none, w) => some (.error .osRefusal, w)
    | (some candidate, w) =>
        if align ∣ candidate then some (.ok (candidate, size), w)
        else (virtualRelease candidate w).map fun w => os.overRegion size align w
  else some (os.overRegion size align w)

def twoCall (os : Windows t) (size align commitLen : ℕ) (w : World) :
    Option (Except VmemError RawReservation × World) := do
  let (answer, w) ← os.reserveRegion size align w
  match answer with
  | .error e => return (.error e, w)
  | .ok (region, overLen) =>
      match t.fits region overLen size align with
      | none => return (.error .invalidArgument, ← virtualRelease region w)
      | some base =>
          let (committed, w) ← os.commit base commitLen w
          if committed then return (.ok ⟨base, region, overLen, false⟩, w)
          else return (.error .osRefusal, ← virtualRelease region w)

/-- The single-call path, where it is tried. -/
def singlePath (os : Windows t) (size align commitLen : ℕ) (large : Bool) (w : World) :
    Option (Option (Except VmemError RawReservation) × World) :=
  let fastPathAlignThreshold := if large then os.largePageMinimum else winAllocationGranularity
  if align ≤ fastPathAlignThreshold ∧ commitLen = size then os.singleCall align commitLen large w
  else some (none, w)

/-- The probing path, where it is tried. -/
def probePath (os : Windows t) (size align commitLen : ℕ) (large : Bool) (w : World) :
    Option (Option RawReservation × World) :=
  if commitLen = size ∧ large = false then
    match t.checkedAdd size align with
    | some overLen => os.reReserve size align overLen rereserveTries w
    | none => some (none, w)
  else some (none, w)

/-- `win_reserve_commit`; `large` is `MEM_LARGE_PAGES` in `extra_commit_flags`. -/
def winReserveCommit (os : Windows t) (size align commitLen : ℕ) (large : Bool) (w : World) :
    Option (Except VmemError RawReservation × World) := do
  let (single, w) ← os.singlePath size align commitLen large w
  match single with
  | some answer => return (answer, w)
  | none =>
      let (hit, w) ← os.probePath size align commitLen large w
      match hit with
      | some raw => return (.ok raw, w)
      | none => os.twoCall size align commitLen w

end Windows

/-! ## The portable interface -/

inductive Os (t : Target) where
  | unix (os : Unix t)
  | windows (os : Windows t)

structure Reservation where
  base : ℕ
  len : ℕ
  reservation : ℕ
  reservationLen : ℕ
  align : ℕ
  grantedHuge : Bool

/-- Packs a raw reservation with the size and alignment that were asked for. -/
def finishReservation (size align : ℕ) (raw : RawReservation) : Reservation :=
  ⟨raw.base, size, raw.reservation, raw.reservationLen, align, raw.grantedHuge⟩

namespace Os

/-- Reserves an aligned range and commits all of it. -/
def reserveAlignedRaw (os : Os t) (size align : ℕ) (w : World) :
    Option (Except VmemError RawReservation × World) :=
  match os with
  | .unix os => os.unixReserve size align false w
  | .windows os => os.winReserveCommit size align size false w

/-- Reserves an aligned range and commits its first `initialCommit` bytes, where the host can. -/
def reserveAlignedLazyRaw (os : Os t) (size align initialCommit : ℕ) (w : World) :
    Option (Except VmemError RawReservation × World) :=
  match os with
  | .unix os => os.unixReserve size align false w
  | .windows os => os.winReserveCommit size align initialCommit false w

/-- Gives back a whole reservation: by its range on Unix, by its base on Windows. -/
def releaseReservation (os : Os t) (reservation reservationLen : ℕ) (w : World) : Option World :=
  match os with
  | .unix _ => libcMunmap reservation reservationLen w
  | .windows _ => virtualRelease reservation w

def tryReserveAligned (os : Os t) (size align : ℕ) (w : World) :
    Option (Except VmemError Reservation × World) :=
  match t.validateSizeAlign size align with
  | .error e => some (.error e, w)
  | .ok () => (os.reserveAlignedRaw size align w).map fun p =>
      (p.1.map (finishReservation size align), p.2)

def tryReserveAlignedLazy (os : Os t) (size align initialCommit : ℕ) (w : World) :
    Option (Except VmemError Reservation × World) :=
  match t.validateSizeAlign size align with
  | .error e => some (.error e, w)
  | .ok () =>
      match t.validateInitialCommit initialCommit size with
      | .error e => some (.error e, w)
      | .ok () => (os.reserveAlignedLazyRaw size align initialCommit w).map fun p =>
          (p.1.map (finishReservation size align), p.2)

/-- Commits page-aligned `[start, stop)` of a reservation; Unix has nothing to do. -/
def commitRange (os : Os t) (base start stop : ℕ) (w : World) : Option (Bool × World) :=
  match t.pageSizeOrPoison with
  | none => some (false, w)
  | some ps =>
      if stop < start ∨ ¬ps ∣ start ∨ ¬ps ∣ stop then some (false, w)
      else if start = stop then some (true, w)
      else
        match os with
        | .unix _ => some (true, w)
        | .windows os => os.commit (base + start) (stop - start) w

/-- The drop of a `Reservation`. -/
def dropReservation (os : Os t) (r : Reservation) (w : World) : Option World :=
  os.releaseReservation r.reservation r.reservationLen w

/-- The offset of the metadata root in front of the aligned payload. -/
def biasedRootOffset (t : Target) (origin align metadata : ℕ) : Option ℕ := do
  let sum ← t.checkedAdd origin metadata
  let sum ← t.checkedAdd sum (align - 1)
  let root ← Target.checkedSub (t.clearBelow sum align) metadata
  Target.checkedSub root origin

/-- The root of a biased window that fits the raw reservation. -/
def biasedRoot (t : Target) (raw : Reservation) (useful committed align metadata : ℕ) :
    Option ℕ := do
  let rootOffset ← biasedRootOffset t raw.base align metadata
  let stop ← t.checkedAdd rootOffset useful
  if raw.len < stop ∨ useful < committed then none else some (raw.base + rootOffset)

/-- `Segment::reserve_biased`; every early return drops the raw reservation. -/
def reserveBiased (os : Os t) (useful committed align metadata : ℕ) (w : World) :
    Option (Option (ℕ × ℕ × ℕ) × World) :=
  match t.checkedAdd useful align with
  | none => some (none, w)
  | some rawLen => do
      let (answer, w) ← os.tryReserveAlignedLazy rawLen segment t.pageSize w
      match answer with
      | .error _ => return (none, w)
      | .ok raw =>
          match biasedRoot t raw useful committed align metadata with
          | none => return (none, ← os.dropReservation raw w)
          | some root =>
              let (done, w) ← os.commitRange root 0 committed w
              if done then return (some (root, raw.reservation, raw.reservationLen), w)
              else return (none, ← os.dropReservation raw w)

end Os

end AlignedVmem
end SeferAlloc
