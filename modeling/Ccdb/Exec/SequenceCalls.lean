import Ccdb.Catalog.IdleDdl
import Ccdb.Exec.ExactArithmetic
import Ccdb.Recovery.Sequence

/-!
# Ccdb — the calls of a sequence

`nextval` and `setval` as `evaluate_sequence_calls_in_expr` makes them, with the definition
that `CREATE SEQUENCE` has left in the catalog, against a machine on unbounded integers
that knows the bounds.

The catalog has MINVALUE and MAXVALUE, and no call reads them. Its columns and the results
are INTEGER. While no value has been handed out `nextval` returns the start value, also
after `setval(.., false)`.

Main results:

* `step_agrees`, `Tracks.step` — one call of both machines.
* `agrees_iff_follows` — the runs with the results of the reference machine.
* `setval_not_called_ignored` — `setval('s', 5, false)`, and the next value is 1.
-/

namespace Ccdb.SequenceCalls

open Sequence (Store SEQ_LOG_VALS checkedAdd reservedTo)
open PgCatalog
open ExactArithmetic (toInt_ofInt32 toInt_ofInt64)

/-! ## The calls -/

/-- `setval`. -/
def setval (st : Store) (seqPageId : UInt32) (newValue : Int64) (isCalled : Bool) :
    Except DbError Int64 × Store :=
  if st.page.pageKind ≠ .sequenceRel then
    (.error (.bail s!"page {seqPageId} is not a sequence relation"), st)
  else
    let page := st.page.writeState ⟨newValue, 0, isCalled⟩
    (.ok newValue, { st.append (.sequenceAdvance seqPageId newValue) with
      page := page.setPageLsn st.nextLsn })

/-- `SequenceFnKind` with `setval_arg` and `setval_is_called`. -/
inductive SequenceFn where
  | nextval
  | setval (arg : Int64) (isCalled : Bool)
deriving DecidableEq, Repr

/-- A SequenceCall, and the value of the literal that takes its place. -/
def evaluateSequenceCall (seq : SequenceDef) (f : SequenceFn) (st : Store) :
    Except DbError Value × Store :=
  let (r, st) := match f with
    | .nextval => st.nextval (.ofNat seq.seqPageId) seq.startValue seq.increment
    | .setval n isCalled => setval st (.ofNat seq.seqPageId) n isCalled
  (r.map fun v => literalToValue ⟨.integer v, some .int⟩, st)

/-- The results of one call after the other. -/
def results (seq : SequenceDef) : Store → List SequenceFn → List (Except DbError Value)
  | _, [] => []
  | st, f :: fs =>
    let (r, st) := evaluateSequenceCall seq f st
    r :: results seq st fs

/-! ## The definition -/

/-- What the row is decoded to. -/
def definition (id page : Int32) (a : AnalyzedSequence) : SequenceDef :=
  ⟨asUsize id, a.name, asPageId page, a.increment.toInt32.toInt64,
    a.startValue.toInt32.toInt64, a.minValue.toInt32.toInt64, a.maxValue.toInt32.toInt64⟩

/-! ## The reference machine -/

/-- The last value, or the next one if it has not been handed out. -/
structure Reference where
  last : Int
  called : Bool
deriving DecidableEq, Repr

namespace Reference

variable (a : AnalyzedSequence) (r : Reference)

def new : Reference := ⟨a.startValue.toInt, false⟩

def next : Int := if r.called then r.last + a.increment.toInt else r.last

/-- The value a call is about. -/
def value : SequenceFn → Int
  | .nextval => r.next a
  | .setval n _ => n.toInt

def InBounds (v : Int) : Prop := a.minValue.toInt ≤ v ∧ v ≤ a.maxValue.toInt

instance (v : Int) : Decidable (InBounds a v) := inferInstanceAs (Decidable (_ ∧ _))

/-- A call; a value out of bounds is an error that changes nothing. -/
def call (f : SequenceFn) : Option Int × Reference :=
  let v := r.value a f
  if InBounds a v then
    (some v, ⟨v, match f with | .nextval => true | .setval _ isCalled => isCalled⟩)
  else (none, r)

def results : Reference → List SequenceFn → List (Option Int)
  | _, [] => []
  | r, f :: fs => (r.call a f).1 :: results (r.call a f).2 fs

end Reference

/-- The same result: the number, or an error that is no panic. -/
def Agrees : Except DbError Value → Option Int → Prop
  | .ok (.int n), some v => n.toInt = v
  | .error (.bail _), none => True
  | _, _ => False

/-- The value is in bounds and an INTEGER, and no other than the start value if `nextval`
has not been called. -/
def Plain (a : AnalyzedSequence) (r : Reference) (f : SequenceFn) : Prop :=
  Reference.InBounds a (r.value a f) ∧ InI32 (r.value a f) ∧
    (f = .nextval → r.called = false → r.last = a.startValue.toInt32.toInt)

instance (a : AnalyzedSequence) (r : Reference) (f : SequenceFn) : Decidable (Plain a r f) :=
  inferInstanceAs (Decidable (_ ∧ _ ∧ _))

/-! ## One call of both machines -/

/-- The page is behind the reference machine: the last value itself, or one step of the
INTEGER increment from the value before. -/
structure Tracks (a : AnalyzedSequence) (st : Store) (r : Reference) : Prop where
  kind : st.page.pageKind = .sequenceRel
  called : st.page.readState.isCalled = r.called
  last : r.called = true → InI32 r.last ∧ (st.page.readState.lastValue.toInt = r.last ∨
    InI32 (r.last - a.increment.toInt) ∧ st.page.readState.lastValue.toInt =
      r.last - a.increment.toInt + a.increment.toInt32.toInt)

section Calls

variable {a : AnalyzedSequence} {st : Store} {r : Reference} {id page : Int32} {f : SequenceFn}

/-- What a call leaves on the page. -/
def LeavesState (st' : Store) (last : Int64) (called : Bool) : Prop :=
  st'.page.pageKind = .sequenceRel ∧ st'.page.readState.isCalled = called ∧
    st'.page.readState.lastValue = last

theorem setval_spec (hkind : st.page.pageKind = .sequenceRel) (pid : UInt32) (n : Int64)
    (isCalled : Bool) : (setval st pid n isCalled).1 = .ok n ∧
      LeavesState (setval st pid n isCalled).2 n isCalled := by
  rw [setval, if_neg (not_not.2 hkind)]
  simp [LeavesState, hkind]

theorem nextval_spec (hkind : st.page.pageKind = .sequenceRel) (pid : UInt32) (start inc : Int64)
    {next : Int64}
    (hnext : (if st.page.readState.isCalled then checkedAdd st.page.readState.lastValue inc
      else some start) = some next) : (st.nextval pid start inc).1 = .ok next ∧
      LeavesState (st.nextval pid start inc).2 next true := by
  rw [Store.nextval, if_neg (not_not.2 hkind)]
  simp only [hnext]
  split
  · simp [LeavesState, hkind]
  · simp [LeavesState, hkind]

theorem checkedAdd_ok {x y : Int64} (h : InI64 (x.toInt + y.toInt)) :
    checkedAdd x y = some (Int64.ofInt (x.toInt + y.toInt)) := by
  have hmin : Int64.minValue.toInt = -2 ^ 63 := by decide
  have hmax : Int64.maxValue.toInt = 2 ^ 63 - 1 := by decide
  obtain ⟨hlo, hhi⟩ := h
  rw [checkedAdd, Sequence.ofInt?, if_pos (by omega)]

/-- The number cut to an INTEGER differs by a multiple of 2^32. -/
theorem toInt32_spec (n : Int64) : InI32 n.toInt32.toInt ∧ (2 : Int) ^ 32 ∣ n.toInt - n.toInt32.toInt := by
  refine ⟨⟨Int32.le_toInt _, Int32.toInt_lt _⟩, ?_⟩
  rw [Int64.toInt_toInt32]
  exact Int.dvd_self_sub_bmod

/-- A call returns the value of the reference machine, cut to an INTEGER, and the page goes on
to follow that machine if the value is plain. -/
theorem call_spec (h : Tracks a st r) : ∃ n : Int32,
    (evaluateSequenceCall (definition id page a) f st).1 = .ok (.int n) ∧
      (Plain a r f → Tracks a (evaluateSequenceCall (definition id page a) f st).2 (r.call a f).2) ∧
      (n.toInt = r.value a f ↔ InI32 (r.value a f) ∧
        (f = .nextval → r.called = false → r.last = a.startValue.toInt32.toInt)) := by
  obtain ⟨hkind, hcalled, hlast⟩ := h
  obtain ⟨hinc, hincDvd⟩ := toInt32_spec a.increment
  have hcall : Plain a r f → (r.call a f).2 = ⟨r.value a f,
      match f with | .nextval => true | .setval _ isCalled => isCalled⟩ := fun hplain => by
    simp only [Reference.call, if_pos hplain.1]
  cases f with
  | setval m isCalled =>
    obtain ⟨hok, hkind', hcalled', hlast'⟩ := setval_spec hkind (.ofNat (definition id page a).seqPageId)
      m isCalled
    obtain ⟨hrange, hdvd⟩ := toInt32_spec m
    refine ⟨m.toInt32, ?_, fun hplain => ?_, ?_⟩
    · simp only [evaluateSequenceCall, hok]
      rfl
    · rw [hcall hplain]
      exact ⟨hkind', hcalled', fun _ => ⟨hplain.2.1, Or.inl (congrArg Int64.toInt hlast')⟩⟩
    · simp only [Reference.value, InI32, reduceCtorEq, false_implies, and_true] at hrange ⊢
      omega
  | nextval =>
    cases hr : r.called with
    | false =>
      obtain ⟨hok, hkind', hcalled', hlast'⟩ := nextval_spec hkind
        (.ofNat (definition id page a).seqPageId) (definition id page a).startValue
        (definition id page a).increment (if_neg (by simp [hcalled, hr]))
      refine ⟨a.startValue.toInt32, ?_, fun hplain => ?_, ?_⟩
      · simp only [evaluateSequenceCall, hok]
        simp [Except.map, literalToValue, definition]
      · have hstart := hplain.2.2 rfl hr
        rw [hcall hplain]
        refine ⟨hkind', hcalled', fun _ => ⟨hplain.2.1, Or.inl ?_⟩⟩
        refine (congrArg Int64.toInt hlast').trans ?_
        simp only [Reference.value, Reference.next, hr, Bool.false_eq_true, if_false, hstart]
        exact Int32.toInt_toInt64 _
      · have hlo := a.startValue.toInt32.le_toInt
        have hhi := a.startValue.toInt32.toInt_lt
        simp only [Reference.value, Reference.next, hr, Bool.false_eq_true, if_false, forall_const, InI32]
        omega
    | true =>
      obtain ⟨hold, hpage⟩ := hlast hr
      set c := st.page.readState.lastValue with hc
      set inc := (definition id page a).increment with hincDef
      have hstep : inc.toInt = a.increment.toInt32.toInt := Int32.toInt_toInt64 _
      have hsum : InI64 (c.toInt + inc.toInt) := by
        rw [hstep]
        simp only [InI32, InI64] at *
        omega
      have hnext := toInt_ofInt64 hsum
      set next := Int64.ofInt (c.toInt + inc.toInt) with hnextDef
      rw [hstep] at hnext
      obtain ⟨hok, hkind', hcalled', hlast'⟩ := nextval_spec hkind
        (.ofNat (definition id page a).seqPageId) (definition id page a).startValue inc
        ((if_pos (hcalled.trans hr)).trans (checkedAdd_ok hsum))
      obtain ⟨hrange, hdvd⟩ := toInt32_spec next
      refine ⟨next.toInt32, ?_, fun hplain => ?_, ?_⟩
      · simp only [evaluateSequenceCall, ← hincDef, hok]
        rfl
      · rw [hcall hplain]
        refine ⟨hkind', hcalled', fun _ => ⟨hplain.2.1, Or.inr ?_⟩⟩
        have hvalue := hplain.2.1
        have hlast := (congrArg Int64.toInt hlast').trans hnext
        rw [Reference.value, Reference.next, if_pos hr] at hvalue ⊢
        dsimp only
        rw [add_sub_cancel_right]
        refine ⟨hold, hlast.trans ?_⟩
        rcases hpage with hpage | ⟨hbefore, hpage⟩
        · rw [hpage]
        · -- one step more, and the increment is an INTEGER
          simp only [InI32] at hold hvalue hbefore hinc
          omega
      · simp only [Reference.value, Reference.next, hr, if_true, reduceCtorEq, false_implies, implies_true,
          and_true, InI32] at *
        omega

/-- **One call**: the results agree exactly if the value is plain. -/
theorem step_agrees (h : Tracks a st r) :
    Agrees (evaluateSequenceCall (definition id page a) f st).1 (r.call a f).1 ↔ Plain a r f := by
  obtain ⟨n, hn, -, hvalue⟩ := @call_spec a st r id page f h
  by_cases hbounds : Reference.InBounds a (r.value a f)
  · have hcall : (r.call a f).1 = some (r.value a f) := by simp only [Reference.call, if_pos hbounds]
    rw [hn, hcall, Plain, and_iff_right hbounds, ← hvalue]
    rfl
  · have hcall : (r.call a f).1 = none := by simp only [Reference.call, if_neg hbounds]
    rw [hn, hcall]
    exact iff_of_false (fun hagree => hagree) fun hplain => hbounds hplain.1

theorem Tracks.step (h : Tracks a st r) (hplain : Plain a r f) :
    Tracks a (evaluateSequenceCall (definition id page a) f st).2 (r.call a f).2 :=
  have ⟨_, _, hstep, _⟩ := call_spec h
  hstep hplain

end Calls

/-! ## Runs -/

/-- The page and the log of a created sequence. -/
def created (page : Int32) (a : AnalyzedSequence) (lsn : UInt64) : Store :=
  .created ⟨.ofNat (asPageId page), a.startValue.toInt32, a.increment.toInt32⟩ lsn

theorem tracks_created (page : Int32) (a : AnalyzedSequence) (lsn : UInt64) :
    Tracks a (created page a lsn) (.new a) where
  kind := by simp [created, Store.created]
  called := by simp [created, Store.created, Reference.new]
  last h := by cases h

theorem agrees_iff_follows_of_tracks {a : AnalyzedSequence} {id page : Int32} (fs : List SequenceFn) :
    ∀ {st : Store} {r : Reference}, Tracks a st r →
      (List.Forall₂ Agrees (results (definition id page a) st fs) (r.results a fs) ↔
        Follows (fun r f => some (Reference.call a r f).2) (Plain a) r fs) := by
  induction fs with
  | nil => exact fun _ => iff_of_true .nil trivial
  | cons f fs ih =>
    intro st r h
    rw [results, Reference.results, List.forall₂_cons, step_agrees h, Follows]
    exact and_congr_right fun hplain => ih (h.step hplain)

/-- **The results are those of the reference machine** exactly in the runs whose values are
all plain. -/
theorem agrees_iff_follows (a : AnalyzedSequence) (id page : Int32) (lsn : UInt64)
    (fs : List SequenceFn) :
    List.Forall₂ Agrees (results (definition id page a) (created page a lsn) fs)
        (Reference.results a (.new a) fs) ↔
      Follows (fun r f => some (Reference.call a r f).2) (Plain a) (.new a) fs :=
  agrees_iff_follows_of_tracks fs (tracks_created page a lsn)

/-- `CREATE SEQUENCE s`. -/
def createS : CreateSequenceStmt := ⟨"s", false, 1, none, none, none⟩

/-- **A value set for the next call is not returned**: after `setval('s', 5, false)` comes 1. -/
theorem setval_not_called_ignored : ¬ ∀ s st a st', analyzeCreateSequence s st = .ok a st' →
    ∀ id page lsn fs, List.Forall₂ Agrees (results (definition id page a) (created page a lsn) fs)
      (Reference.results a (.new a) fs) := by
  intro h
  have hagree := h createS bootstrap ⟨"s", 1, 1, 1, 2147483647⟩ bootstrap rfl 0 5 1 [.setval 5 false, .nextval]
  have hresults : results (definition 0 5 ⟨"s", 1, 1, 1, 2147483647⟩)
      (created 5 ⟨"s", 1, 1, 1, 2147483647⟩ 1) [.setval 5 false, .nextval] = [.ok (.int 5), .ok (.int 1)] := by
    decide +kernel
  have hreference : Reference.results ⟨"s", 1, 1, 1, 2147483647⟩ (.new ⟨"s", 1, 1, 1, 2147483647⟩)
      [.setval 5 false, .nextval] = [some 5, some 5] := by
    decide +kernel
  rw [hresults, hreference, List.forall₂_cons, List.forall₂_cons] at hagree
  exact absurd hagree.2.1 (by simp [Agrees])

end Ccdb.SequenceCalls
