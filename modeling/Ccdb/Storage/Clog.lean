import Ccdb.Base
import Ccdb.Lib.Bits
import Ccdb.Txn.Manager

/-!
# Ccdb — the commit log

`clog.rs`: two bits per transaction, four transactions to a byte, 16384 to a page
that is loaded when it is first asked for and written back by `flush`. The file is
modelled by its length and bytes; a write behind its end leaves zeros in the gap.

The rest of the development takes the commit log for a map from transaction ids to
outcomes. Here the map is what the pages and the file say: `Inv s m saved` relates a
store to the map `m` its readers see and the map `saved` a reopened one would.

Main results:

* `crumb_update` — setting one transaction leaves the bits of every other.
* `Op.apply_inv` — one call answers and changes what the maps say.
* `clog_refines` — so does every run from an empty directory.
-/

namespace Ccdb.Clog

open Ccdb.Bits

def PAGE_SIZE : Nat := 4096
def TXNS_PER_PAGE : Nat := PAGE_SIZE * 4

def STATUS_IN_PROGRESS : UInt8 := 0
def STATUS_COMMITTED : UInt8 := 1
def STATUS_ABORTED : UInt8 := 2

abbrev TxnId := UInt64

/-- `[u8; PAGE_SIZE]`. -/
abbrev Page := Fin PAGE_SIZE → UInt8

/-! ## The file -/

/-- `clog.db`: its length and bytes. -/
structure File where
  len : Nat
  byte : Nat → UInt8

namespace File

def empty : File := ⟨0, fun _ => 0⟩

/-- `seek(Start(off))` and `read_exact` of one page. -/
def read (f : File) (off : Nat) : Except DbError Page :=
  if off + PAGE_SIZE ≤ f.len then .ok fun i => f.byte (off + i)
  else .error (.io "failed to fill whole buffer")

/-- `seek(Start(off))` and `write_all` of one page. -/
def write (f : File) (off : Nat) (page : Page) : File where
  len := max f.len (off + PAGE_SIZE)
  byte i :=
    if h : off ≤ i ∧ i < off + PAGE_SIZE then page ⟨i - off, by omega⟩
    else if i < f.len then f.byte i
    else 0

end File

/-! ## The store -/

/-- The fields of `Inner`; `dirty` is a set, in the order pages were added. -/
structure Inner where
  pages : Nat → Option Page
  dirty : List Nat
  onDiskPages : Nat

/-- The directory and the open commit log. -/
structure Store where
  file : Option File
  inner : Inner

/-- The `HashSet` of dirty pages is walked in any order. -/
structure Shuffle where
  run : List Nat → List Nat
  perm : ∀ l, (run l).Perm l

/-- `Clog::open`. -/
def openClog (file : Option File) : Store where
  file := file
  inner :=
    { pages := fun _ => none
      dirty := []
      onDiskPages :=
        match file with
        | some f => f.len / PAGE_SIZE
        | none => 0 }

/-- `txn_id / TXNS_PER_PAGE`. -/
def pageOf (t : TxnId) : Nat := t.toNat / TXNS_PER_PAGE

theorem bitPosition_lt (t : TxnId) : t.toNat % TXNS_PER_PAGE / 4 < PAGE_SIZE := by
  simp only [TXNS_PER_PAGE, PAGE_SIZE]
  omega

/-- `bit_position`: byte in the page and shift in the byte. -/
def bitPosition (t : TxnId) : Fin PAGE_SIZE × UInt8 :=
  (⟨t.toNat % TXNS_PER_PAGE / 4, bitPosition_lt t⟩, UInt8.ofNat (t.toNat % 4 * 2))

/-- `ensure_loaded`. -/
def ensureLoaded (s : Store) (pageId : Nat) : Except DbError Store :=
  match s.inner.pages pageId with
  | some _ => .ok s
  | none =>
    if pageId < s.inner.onDiskPages then
      match s.file with
      | none => .error (.io "No such file or directory")
      | some f => do
        let buf ← f.read (pageId * PAGE_SIZE)
        return { s with
          inner := { s.inner with pages := Function.update s.inner.pages pageId (some buf) } }
    else
      .ok { s with
        inner := { s.inner with
          pages := Function.update s.inner.pages pageId (some fun _ => 0) } }

def statusOfBits (bits : UInt8) : TxnStatus :=
  if bits = STATUS_COMMITTED then .committed
  else if bits = STATUS_ABORTED then .aborted
  else .inProgress

def bitsOfStatus : TxnStatus → UInt8
  | .committed => STATUS_COMMITTED
  | .aborted => STATUS_ABORTED
  | .inProgress => STATUS_IN_PROGRESS

/-- `get`. -/
def get (s : Store) (t : TxnId) : Except DbError (TxnStatus × Store) := do
  let s ← ensureLoaded s (pageOf t)
  match s.inner.pages (pageOf t) with
  | none => .error (.panic "just loaded")
  | some page =>
    let (off, shift) := bitPosition t
    return (statusOfBits (crumb (page off) shift), s)

/-- `set`. -/
def set (s : Store) (t : TxnId) (status : TxnStatus) : Except DbError Store := do
  let s ← ensureLoaded s (pageOf t)
  match s.inner.pages (pageOf t) with
  | none => .error (.panic "just loaded")
  | some page =>
    let (off, shift) := bitPosition t
    let page := Function.update page off (setCrumb (page off) shift (bitsOfStatus status))
    return { s with
      inner := { s.inner with
        pages := Function.update s.inner.pages (pageOf t) (some page)
        dirty := s.inner.dirty.insert (pageOf t) } }

/-- The loop of `flush` over the dirty pages: the file and `on_disk_pages`. -/
def writeDirty (pages : Nat → Option Page) : List Nat → File × Nat → Except DbError (File × Nat)
  | [], out => .ok out
  | pid :: rest, (f, onDisk) =>
    match pages pid with
    | none => .error (.panic "dirty page must be loaded")
    | some bytes =>
      writeDirty pages rest
        (f.write (pid * PAGE_SIZE) bytes, if onDisk ≤ pid then pid + 1 else onDisk)

/-- `flush`. -/
def flush (s : Store) (order : Shuffle) : Except DbError Store :=
  if s.inner.dirty = [] then .ok s
  else do
    let (f, onDisk) ← writeDirty s.inner.pages (order.run s.inner.dirty)
      (s.file.getD File.empty, s.inner.onDiskPages)
    return ⟨some f, { s.inner with dirty := [], onDiskPages := onDisk }⟩

/-! ## Runs -/

inductive Op where
  | get (t : TxnId)
  | set (t : TxnId) (status : TxnStatus)
  | flush (order : Shuffle)
  | reopen

/-- One call; only `get` has an answer. A reopen keeps the file and nothing else. -/
def Op.apply (op : Op) (s : Store) : Except DbError (Option TxnStatus × Store) :=
  match op with
  | .get t => do
    let (status, s) ← Clog.get s t
    return (some status, s)
  | .set t status => do return (none, ← Clog.set s t status)
  | .flush order => do return (none, ← Clog.flush s order)
  | .reopen => .ok (none, openClog s.file)

/-- A sequence of calls with their answers. -/
def run : List Op → Store → Except DbError (List (Option TxnStatus) × Store)
  | [], s => .ok ([], s)
  | op :: ops, s => do
    let (a, s) ← op.apply s
    let (as, s) ← run ops s
    return (a :: as, s)

/-- The map of outcomes, and the map as of the last flush. -/
structure Maps where
  current : TxnId → TxnStatus
  saved : TxnId → TxnStatus

def Maps.init : Maps := ⟨fun _ => .inProgress, fun _ => .inProgress⟩

def Op.spec : Op → Maps → Option TxnStatus × Maps
  | .get t, m => (some (m.current t), m)
  | .set t status, m => (none, { m with current := Function.update m.current t status })
  | .flush _, m => (none, { m with saved := m.current })
  | .reopen, m => (none, { m with current := m.saved })

def runSpec : List Op → Maps → List (Option TxnStatus) × Maps
  | [], m => ([], m)
  | op :: ops, m =>
    let (a, m) := op.spec m
    let (as, m) := runSpec ops m
    (a :: as, m)

/-! ## Bits of a page -/

/-- The outcome a page holds for a transaction. -/
def lookup (page : Page) (t : TxnId) : TxnStatus :=
  statusOfBits (crumb (page (bitPosition t).1) (bitPosition t).2)

/-- The page after `set`. -/
def store (page : Page) (t : TxnId) (status : TxnStatus) : Page :=
  Function.update page (bitPosition t).1
    (setCrumb (page (bitPosition t).1) (bitPosition t).2 (bitsOfStatus status))

theorem statusOfBits_bitsOfStatus (status : TxnStatus) :
    statusOfBits (bitsOfStatus status) = status := by
  cases status <;> rfl

theorem lookup_zero (t : TxnId) : lookup (fun _ => 0) t = .inProgress := by
  have hz : crumb 0 (bitPosition t).2 = 0 := crumb_zero (Nat.mod_lt t.toNat (by decide))
  rw [lookup, hz]
  rfl

/-- Ids with the same page, byte and shift are the same id. -/
theorem position_inj {t u : TxnId} (hpage : pageOf t = pageOf u)
    (hoff : (bitPosition t).1 = (bitPosition u).1) (hshift : t.toNat % 4 = u.toNat % 4) :
    t = u := by
  have hbyte : t.toNat % TXNS_PER_PAGE / 4 = u.toNat % TXNS_PER_PAGE / 4 := congrArg Fin.val hoff
  refine UInt64.toNat_inj.1 ?_
  simp only [pageOf, TXNS_PER_PAGE, PAGE_SIZE] at hpage hbyte
  omega

/-- Setting one transaction leaves the outcome of every other on the page. -/
theorem lookup_store (page : Page) {t u : TxnId} (hpage : pageOf t = pageOf u)
    (status : TxnStatus) :
    lookup (store page t status) u = if u = t then status else lookup page u := by
  have hv : (bitsOfStatus status).toNat < 4 := by cases status <;> decide
  have ht : t.toNat % 4 < 4 := Nat.mod_lt _ (by decide)
  have hu : u.toNat % 4 < 4 := Nat.mod_lt _ (by decide)
  unfold lookup store
  by_cases hoff : (bitPosition u).1 = (bitPosition t).1
  · rw [hoff, Function.update_self]
    have hcrumb := crumb_setCrumb (page (bitPosition t).1) ht hu hv
    have hshift : crumb (setCrumb (page (bitPosition t).1) (bitPosition t).2
        (bitsOfStatus status)) (bitPosition u).2 =
        if t.toNat % 4 = u.toNat % 4 then bitsOfStatus status
        else crumb (page (bitPosition t).1) (bitPosition u).2 := hcrumb
    rw [hshift]
    by_cases hut : u = t
    · subst hut
      rw [if_pos rfl, if_pos rfl, statusOfBits_bitsOfStatus]
    · rw [if_neg hut, if_neg fun h => hut (position_inj hpage hoff.symm h).symm]
  · rw [Function.update_of_ne hoff, if_neg]
    rintro rfl
    exact hoff rfl

/-! ## Pages of the file -/

/-- The page a reopened log would load. -/
def diskPage (file : Option File) (k : Nat) : Page :=
  match file with
  | none => fun _ => 0
  | some f =>
    if k * PAGE_SIZE + PAGE_SIZE ≤ f.len then fun i => f.byte (k * PAGE_SIZE + i) else fun _ => 0

/-- `on_disk_pages` is the size of the file. -/
def FileOk (file : Option File) (onDisk : Nat) : Prop :=
  match file with
  | none => onDisk = 0
  | some f => f.len = onDisk * PAGE_SIZE

theorem fileOk_write {f : File} {onDisk : Nat} (h : f.len = onDisk * PAGE_SIZE) (pid : Nat)
    (page : Page) :
    (f.write (pid * PAGE_SIZE) page).len =
      (if onDisk ≤ pid then pid + 1 else onDisk) * PAGE_SIZE := by
  simp only [File.write, h, PAGE_SIZE]
  split <;> omega

theorem diskPage_write {f : File} {onDisk : Nat} (h : f.len = onDisk * PAGE_SIZE) (pid : Nat)
    (page : Page) (k : Nat) :
    diskPage (some (f.write (pid * PAGE_SIZE) page)) k =
      if k = pid then page else diskPage (some f) k := by
  funext i
  have hi := i.isLt
  by_cases hk : k = pid
  · subst hk
    have hnew : k * PAGE_SIZE + PAGE_SIZE ≤ (f.write (k * PAGE_SIZE) page).len :=
      Nat.le_max_right _ _
    rw [if_pos rfl, diskPage, if_pos hnew]
    have hin : k * PAGE_SIZE ≤ k * PAGE_SIZE + i.val ∧
        k * PAGE_SIZE + i.val < k * PAGE_SIZE + PAGE_SIZE := by omega
    simp only [File.write, dif_pos hin]
    congr 1
    exact Fin.ext (Nat.add_sub_cancel_left _ _)
  · rw [if_neg hk]
    have hout : ¬ (pid * PAGE_SIZE ≤ k * PAGE_SIZE + i.val ∧
        k * PAGE_SIZE + i.val < pid * PAGE_SIZE + PAGE_SIZE) := by
      simp only [PAGE_SIZE] at hi ⊢
      omega
    by_cases hold : k * PAGE_SIZE + PAGE_SIZE ≤ f.len
    · have hnew : k * PAGE_SIZE + PAGE_SIZE ≤ (f.write (pid * PAGE_SIZE) page).len :=
        Nat.le_trans hold (Nat.le_max_left _ _)
      rw [diskPage, if_pos hnew, diskPage, if_pos hold]
      simp only [File.write, dif_neg hout]
      rw [if_pos (by omega)]
    · rw [diskPage, diskPage, if_neg hold]
      split
      · simp only [File.write, dif_neg hout]
        rw [if_neg]
        simp only [h, PAGE_SIZE] at hold ⊢
        omega
      · rfl

/-- What the loop of `flush` leaves: the pages of the list are written, the others stay. -/
theorem writeDirty_eq (pages : Nat → Option Page) :
    ∀ (l : List Nat) (f : File) (onDisk : Nat), f.len = onDisk * PAGE_SIZE →
      (∀ k ∈ l, (pages k).isSome) →
      ∃ f' onDisk', writeDirty pages l (f, onDisk) = .ok (f', onDisk') ∧
        f'.len = onDisk' * PAGE_SIZE ∧
        ∀ k, diskPage (some f') k =
          if k ∈ l then (pages k).getD (diskPage (some f) k) else diskPage (some f) k
  | [], f, onDisk, h, _ => ⟨f, onDisk, rfl, h, fun k => by simp⟩
  | pid :: l, f, onDisk, h, hall => by
    obtain ⟨page, hpage⟩ := Option.isSome_iff_exists.1 (hall pid List.mem_cons_self)
    obtain ⟨f', onDisk', hrun, hlen, hdisk⟩ := writeDirty_eq pages l
      (f.write (pid * PAGE_SIZE) page) (if onDisk ≤ pid then pid + 1 else onDisk)
      (fileOk_write h pid page) fun k hk => hall k (List.mem_cons_of_mem pid hk)
    refine ⟨f', onDisk', by rw [writeDirty, hpage]; exact hrun, hlen, fun k => ?_⟩
    rw [hdisk k, diskPage_write h pid page k]
    by_cases hkl : k ∈ l
    · obtain ⟨q, hq⟩ := Option.isSome_iff_exists.1 (hall k (List.mem_cons_of_mem pid hkl))
      rw [if_pos hkl, if_pos (List.mem_cons_of_mem pid hkl), hq]
      rfl
    · rw [if_neg hkl]
      by_cases hk : k = pid
      · rw [if_pos hk, if_pos (hk ▸ List.mem_cons_self), hk, hpage]
        rfl
      · rw [if_neg hk, if_neg (by simp [hk, hkl])]

/-! ## The invariant -/

/-- The page a reader would see. -/
def view (s : Store) (k : Nat) : Page := (s.inner.pages k).getD (diskPage s.file k)

/-- The store holds the maps: the pages readers see the current one, the file the saved one. -/
structure Inv (s : Store) (m : Maps) : Prop where
  file : FileOk s.file s.inner.onDiskPages
  current : ∀ t, lookup (view s (pageOf t)) t = m.current t
  saved : ∀ t, lookup (diskPage s.file (pageOf t)) t = m.saved t
  clean : ∀ k page, s.inner.pages k = some page → k ∉ s.inner.dirty → page = diskPage s.file k
  loaded : ∀ k ∈ s.inner.dirty, (s.inner.pages k).isSome

/-- The store with a page in memory. -/
def load (s : Store) (k : Nat) : Store :=
  { s with inner := { s.inner with pages := Function.update s.inner.pages k (some (view s k)) } }

theorem ensureLoaded_eq {s : Store} {m : Maps} (h : Inv s m) (k : Nat) :
    ensureLoaded s k = .ok (load s k) := by
  unfold ensureLoaded
  cases hp : s.inner.pages k with
  | some page =>
    have hsame : Function.update s.inner.pages k (some (view s k)) = s.inner.pages := by
      rw [view, hp]
      exact Function.update_eq_self_iff.2 hp.symm
    simp only [load, hsame]
  | none =>
    have hfile := h.file
    have hview : view s k = diskPage s.file k := by rw [view, hp]; rfl
    simp only [load, hview]
    by_cases hk : k < s.inner.onDiskPages
    · rw [if_pos hk]
      cases hf : s.file with
      | none =>
        rw [hf] at hfile
        have hzero : s.inner.onDiskPages = 0 := hfile
        omega
      | some f =>
        rw [hf] at hfile
        have hlen : f.len = s.inner.onDiskPages * PAGE_SIZE := hfile
        have hin : k * PAGE_SIZE + PAGE_SIZE ≤ f.len := by
          simp only [hlen, PAGE_SIZE]
          omega
        simp only [File.read, if_pos hin, bind, Except.bind, pure, Except.pure, diskPage]
    · rw [if_neg hk]
      have hzero : diskPage s.file k = fun _ => 0 := by
        cases hf : s.file with
        | none => rfl
        | some f =>
          rw [hf] at hfile
          have hlen : f.len = s.inner.onDiskPages * PAGE_SIZE := hfile
          rw [diskPage, if_neg]
          simp only [hlen, PAGE_SIZE]
          omega
      rw [hzero]

theorem load_pages (s : Store) (k : Nat) : (load s k).inner.pages k = some (view s k) :=
  Function.update_self k _ _

/-- The store with a changed page. -/
def put (s : Store) (k : Nat) (page : Page) : Store :=
  { s with
    inner := { s.inner with
      pages := Function.update s.inner.pages k (some page)
      dirty := s.inner.dirty.insert k } }

theorem view_put (s : Store) (k : Nat) (page : Page) (j : Nat) :
    view (put s k page) j = if j = k then page else view s j := by
  show (Function.update s.inner.pages k (some page) j).getD (diskPage s.file j) = _
  by_cases hj : j = k
  · rw [if_pos hj, hj, Function.update_self]
    rfl
  · rw [if_neg hj, Function.update_of_ne hj, view]

theorem view_load (s : Store) (k j : Nat) : view (load s k) j = view s j := by
  by_cases hj : j = k
  · subst hj
    rw [view, load_pages]
    rfl
  · unfold view
    rw [load]
    simp only [Function.update_of_ne hj]

theorem Inv.load {s : Store} {m : Maps} (h : Inv s m) (k : Nat) : Inv (load s k) m where
  file := h.file
  current t := by
    rw [view_load]
    exact h.current t
  saved := h.saved
  clean j page hj hd := by
    by_cases hjk : j = k
    · subst hjk
      rw [load_pages] at hj
      cases hj
      cases hp : s.inner.pages j with
      | some q =>
        rw [view, hp]
        exact h.clean j q hp hd
      | none => rw [view, hp]; rfl
    · simp only [Clog.load, Function.update_of_ne hjk] at hj
      exact h.clean j page hj hd
  loaded j hj := by
    by_cases hjk : j = k
    · subst hjk
      rw [load_pages]
      rfl
    · simp only [Clog.load, Function.update_of_ne hjk]
      exact h.loaded j hj

/-! ## The calls -/

section Calls

variable {s : Store} {m : Maps}

theorem get_inv (h : Inv s m) (t : TxnId) :
    ∃ s', get s t = .ok (m.current t, s') ∧ Inv s' m := by
  refine ⟨load s (pageOf t), ?_, h.load _⟩
  have hlookup := h.current t
  unfold lookup at hlookup
  simp only [get, ensureLoaded_eq h, bind, Except.bind, load_pages, pure, Except.pure, hlookup]

theorem set_inv (h : Inv s m) (t : TxnId) (status : TxnStatus) :
    ∃ s', set s t status = .ok s' ∧
      Inv s' { m with current := Function.update m.current t status } := by
  have hload := h.load (pageOf t)
  set page := store (view s (pageOf t)) t status with hpage
  refine ⟨put (load s (pageOf t)) (pageOf t) page, ?_, hload.file, fun u => ?_, hload.saved, ?_, ?_⟩
  · simp only [set, ensureLoaded_eq h, bind, Except.bind, load_pages, pure, Except.pure]
    rfl
  · show lookup (view (put _ (pageOf t) page) (pageOf u)) u =
      Function.update m.current t status u
    by_cases hu : pageOf u = pageOf t
    · rw [hu, view_put, if_pos rfl, hpage, lookup_store _ hu.symm]
      by_cases hut : u = t
      · rw [if_pos hut, hut, Function.update_self]
      · rw [if_neg hut, Function.update_of_ne hut, ← hu]
        exact h.current u
    · have hut : u ≠ t := by
        rintro rfl
        exact hu rfl
      rw [view_put, if_neg hu, Function.update_of_ne hut]
      exact hload.current u
  · intro j q hj hd
    have hjk : j ≠ pageOf t := by
      rintro rfl
      exact hd List.mem_insert_self
    simp only [put, Function.update_of_ne hjk] at hj
    exact hload.clean j q hj fun hmem => hd (List.mem_insert_of_mem hmem)
  · intro j hj
    by_cases hjk : j = pageOf t
    · subst hjk
      simp [put]
    · simp only [put, Function.update_of_ne hjk]
      exact hload.loaded j ((List.mem_insert_iff.1 hj).resolve_left hjk)

theorem flush_inv (h : Inv s m) (order : Shuffle) :
    ∃ s', flush s order = .ok s' ∧ Inv s' { m with saved := m.current } := by
  -- a page that is not dirty is on disk already
  have hsame : ∀ k, k ∉ s.inner.dirty → view s k = diskPage s.file k := by
    intro k hk
    cases hp : s.inner.pages k with
    | some page =>
      rw [view, hp]
      exact h.clean k page hp hk
    | none => rw [view, hp]; rfl
  by_cases hd : s.inner.dirty = []
  · refine ⟨s, by rw [flush, if_pos hd], h.file, h.current, fun t => ?_, h.clean, h.loaded⟩
    rw [← hsame _ (by rw [hd]; simp)]
    exact h.current t
  · have hmem : ∀ k, k ∈ order.run s.inner.dirty ↔ k ∈ s.inner.dirty :=
      fun k => (order.perm s.inner.dirty).mem_iff
    have hfile : (s.file.getD File.empty).len = s.inner.onDiskPages * PAGE_SIZE := by
      have hf := h.file
      cases hfs : s.file with
      | none =>
        rw [hfs] at hf
        have hzero : s.inner.onDiskPages = 0 := hf
        rw [hzero, Nat.zero_mul]
        rfl
      | some f =>
        rw [hfs] at hf
        exact hf
    have hempty : ∀ k, diskPage (some (s.file.getD File.empty)) k = diskPage s.file k := by
      intro k
      cases hfs : s.file with
      | none =>
        have hshort : ¬ k * PAGE_SIZE + PAGE_SIZE ≤ File.empty.len := by
          simp [File.empty, PAGE_SIZE]
        show diskPage (some File.empty) k = fun _ => 0
        rw [diskPage, if_neg hshort]
      | some f => rfl
    obtain ⟨f', onDisk', hrun, hlen, hdisk⟩ := writeDirty_eq s.inner.pages
      (order.run s.inner.dirty) (s.file.getD File.empty) s.inner.onDiskPages hfile
      fun k hk => h.loaded k ((hmem k).1 hk)
    -- afterwards the file has every page as readers see it
    have hall : ∀ k, diskPage (some f') k = view s k := by
      intro k
      rw [hdisk k, hempty k]
      by_cases hk : k ∈ s.inner.dirty
      · rw [if_pos ((hmem k).2 hk), view]
      · rw [if_neg fun hin => hk ((hmem k).1 hin), hsame k hk]
    refine ⟨⟨some f', { s.inner with dirty := [], onDiskPages := onDisk' }⟩, ?_, ?_⟩
    · rw [flush, if_neg hd, hrun]
      rfl
    have hview : ∀ k, view ⟨some f', { s.inner with dirty := [], onDiskPages := onDisk' }⟩ k =
        view s k := by
      intro k
      show (s.inner.pages k).getD (diskPage (some f') k) = view s k
      rw [hall k, view]
      cases s.inner.pages k <;> rfl
    refine ⟨hlen, fun t => ?_, fun t => ?_, fun k page hk _ => ?_, fun k hk => ?_⟩
    · rw [hview]
      exact h.current t
    · show lookup (diskPage (some f') (pageOf t)) t = m.current t
      rw [hall]
      exact h.current t
    · show page = diskPage (some f') k
      rw [hall k, view]
      have hk' : s.inner.pages k = some page := hk
      rw [hk']
      rfl
    · cases hk

theorem reopen_inv (h : Inv s m) : Inv (openClog s.file) { m with current := m.saved } := by
  have hview : ∀ k, view (openClog s.file) k = diskPage s.file k := fun _ => rfl
  refine ⟨?_, fun t => ?_, h.saved, fun k page hk _ => (by cases hk), fun k hk => (by cases hk)⟩
  · have hf := h.file
    show FileOk s.file (openClog s.file).inner.onDiskPages
    cases hfs : s.file with
    | none => rfl
    | some f =>
      rw [hfs] at hf
      have hlen : f.len = s.inner.onDiskPages * PAGE_SIZE := hf
      show f.len = f.len / PAGE_SIZE * PAGE_SIZE
      rw [hlen, Nat.mul_div_cancel _ (by decide)]
  · rw [hview]
    exact h.saved t

end Calls

/-- One call answers what the maps say and follows them. -/
theorem Op.apply_inv {s : Store} {m : Maps} (h : Inv s m) (op : Op) :
    ∃ s', op.apply s = .ok ((op.spec m).1, s') ∧ Inv s' (op.spec m).2 := by
  cases op with
  | get t =>
    obtain ⟨s', hs, hinv⟩ := get_inv h t
    exact ⟨s', by simp only [Op.apply, hs, bind, Except.bind, pure, Except.pure, Op.spec], hinv⟩
  | set t status =>
    obtain ⟨s', hs, hinv⟩ := set_inv h t status
    exact ⟨s', by simp only [Op.apply, hs, bind, Except.bind, pure, Except.pure, Op.spec], hinv⟩
  | flush order =>
    obtain ⟨s', hs, hinv⟩ := flush_inv h order
    exact ⟨s', by simp only [Op.apply, hs, bind, Except.bind, pure, Except.pure, Op.spec], hinv⟩
  | reopen => exact ⟨openClog s.file, rfl, reopen_inv h⟩

theorem run_inv : ∀ (ops : List Op) {s : Store} {m : Maps}, Inv s m →
    ∃ s', run ops s = .ok ((runSpec ops m).1, s') ∧ Inv s' (runSpec ops m).2
  | [], s, m, h => ⟨s, rfl, h⟩
  | op :: ops, s, m, h => by
    obtain ⟨s₁, h₁, hinv₁⟩ := op.apply_inv h
    obtain ⟨s₂, h₂, hinv₂⟩ := run_inv ops hinv₁
    exact ⟨s₂, by simp only [run, h₁, h₂, bind, Except.bind, pure, Except.pure, runSpec], hinv₂⟩

/-- An empty directory holds the empty map. -/
theorem inv_init : Inv (openClog none) Maps.init where
  file := rfl
  current t := lookup_zero t
  saved t := lookup_zero t
  clean k page hk _ := by cases hk
  loaded k hk := by cases hk

/-- The commit log is a persistent map: every sequence of calls on an empty directory
succeeds with the answers of the map that a flush saves and a reopen restores, and setting
one transaction does not change the answer for another. -/
theorem clog_refines (ops : List Op) :
    ∃ s, run ops (openClog none) = .ok ((runSpec ops Maps.init).1, s) ∧
      ∀ t status, ∃ s', set s t status = .ok s' ∧
        ∀ u, u ≠ t → ∃ answer s₁ s₂, get s u = .ok (answer, s₁) ∧ get s' u = .ok (answer, s₂) := by
  obtain ⟨s, hrun, hinv⟩ := run_inv ops inv_init
  refine ⟨s, hrun, fun t status => ?_⟩
  obtain ⟨s', hset, hinv'⟩ := set_inv hinv t status
  refine ⟨s', hset, fun u hu => ?_⟩
  obtain ⟨s₁, hget₁, _⟩ := get_inv hinv u
  obtain ⟨s₂, hget₂, _⟩ := get_inv hinv' u
  refine ⟨_, s₁, s₂, hget₁, ?_⟩
  rw [hget₂]
  show Except.ok (Function.update (runSpec ops Maps.init).2.current t status u, s₂) = _
  rw [Function.update_of_ne hu]

end Ccdb.Clog
