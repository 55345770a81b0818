import ArithWatch.Check.Qualify

namespace ArithWatch

/-!
# Instrumenting functions

Behind every watched instruction the block is cut, and between the two halves a chain of decision
blocks is inserted, one for each check.  A decision block computes the condition of its check and
branches on it, with both arms to the next block of the chain, so that the checks never change where
control goes.

* `CheckSite` describes the chain behind one instruction.
* `FunctionReport` lists the sites of a function, its inserted branches and the operations that were
  left alone.
* `Edit.instrument` instruments a function.
-/

/-- One decision block. -/
structure Check where
  kind : CheckKind
  /-- The value on which the block branches. -/
  predicate : ValueId
  block : BlockId
  deriving DecidableEq, Repr

/-- The chain of decision blocks behind an instruction.  Control comes from the block of the
    instruction and goes on to its cut-off rest. -/
structure CheckSite where
  id : SiteId
  inst : InstId
  op : BinOp
  originBlock : BlockId
  contBlock : BlockId
  location : Option Location := none
  checks : List Check
  deriving DecidableEq, Repr

namespace CheckSite

/-- The decision blocks, in the order of the chain. -/
def decisionBlocks (s : CheckSite) : List BlockId := s.checks.map (·.block)

/-- What the site checks for, in the order of the chain. -/
def kinds (s : CheckSite) : List CheckKind := s.checks.map (·.kind)

end CheckSite

/-- A binary operation that was left alone. -/
structure SkippedInst where
  inst : InstId
  op : BinOp
  reason : SkipReason
  location : Option Location := none
  deriving DecidableEq, Repr

/-- What was done to a function. -/
structure FunctionReport where
  function : String
  sites : List CheckSite := []
  checks : CheckMap := ∅
  skipped : List SkippedInst := []
  deriving DecidableEq, Repr

namespace FunctionReport

/-- The site with the given number. -/
def site? (r : FunctionReport) (s : SiteId) : Option CheckSite := r.sites[s.index]?

/-- The site behind an instruction. -/
def siteFor? (r : FunctionReport) (i : InstId) : Option CheckSite := r.sites.find? (·.inst == i)

/-- Why an instruction was left alone. -/
def skipReason? (r : FunctionReport) (i : InstId) : Option SkipReason :=
  (r.skipped.find? (·.inst == i)).map (·.reason)

/-- The number of inserted branches of a kind. -/
def count (r : FunctionReport) (kind : CheckKind) : Nat := r.checks.count kind

end FunctionReport

/-! ### One instruction -/

namespace Edit

/-- Records what a branch checks in the map of a report. -/
def recordCheck (m : CheckMap) (branch : BlockId) (r : CheckRecord) : Edit CheckMap :=
  match CheckMap.record branch r m with
  | .ok _ m => pure m
  | .error fault _ => throw fault

/-- Fills the decision blocks of a site in order.  Each one branches to the block behind it, the
    last one to `cont`. -/
def fillChain (t : Threshold) (watched : Watched) (location : Option Location)
    (record : CheckKind → CheckRecord) (cont : BlockId) :
    List (CheckPredicate × BlockId) → CheckMap → Edit (List Check × CheckMap)
  | [], m => pure ([], m)
  | (p, block) :: rest, m => do
    let next := match rest with
      | [] => cont
      | (_, next) :: _ => next
    let cursor : Cursor := { block, location }
    let predicate ← p.build t cursor watched
    let branch ← cursor.condBr predicate next next
    let m ← recordCheck m branch (record p.kind)
    let (checks, m) ← fillChain t watched location record cont rest m
    return ({ kind := p.kind, predicate, block := branch } :: checks, m)

/-- Inserts the chain of a watched instruction; none if its block cannot be cut behind it. -/
def insertSite (t : Threshold) (i : InstId) (q : Qualified) (site : SiteId) (m : CheckMap) :
    Edit (Option (CheckSite × CheckMap)) := do
  let location ← query (·.location i)
  match ← splitBlockAfter i with
  | none => return none
  | some (origin, cont) =>
    let _ ← eraseTerminator origin
    let blocks ← q.checks.mapM fun p => createBlock p.kind.blockName
    let _ ← Cursor.br { block := origin, location } (blocks.head?.getD cont)
    let record (kind : CheckKind) : CheckRecord := { kind, site, origin := i, location }
    let (checks, m) ← fillChain t q.watched location record cont (q.checks.zip blocks) m
    return some ({
      id := site
      inst := i
      op := q.watched.op
      originBlock := origin
      contBlock := cont
      location
      checks }, m)

/-! ### The whole function -/

/-- Adds an operation that is left alone to a report, under the id by which it was looked up. -/
def skip (report : FunctionReport) (id : InstId) (op : BinOp) (reason : SkipReason)
    (location : Option Location) : FunctionReport :=
  { report with skipped := report.skipped ++ [{ inst := id, op, reason, location }] }

/-- Deals with one instruction of the work list. -/
def instrumentInst (t : Threshold) (options : InstrumentOptions) (report : FunctionReport)
    (id : InstId) : Edit FunctionReport := do
  match ← query (·.inst id) with
  | none => return report
  | some i =>
    match i.kind with
    | .binary op _ _ _ =>
      match (← get).qualify options i with
      | .error reason => return skip report id op reason i.location
      | .ok q =>
        match ← insertSite t id q ⟨report.sites.length⟩ report.checks with
        | none => return skip report id op .noSplitPoint i.location
        | some (site, checks) => return { report with sites := report.sites ++ [site], checks }
    | _ => return report

/-- The binary operations of a function, in layout order. -/
def workList (f : Function) : Except Fault (List InstId) := do
  return ((← f.blocksInLayout).flatMap (·.insts) |>.filter (·.kind.isBinary)).map (·.id)

/-- Instruments a function.  The work list is fixed at the start, so that inserted instructions are
    not watched. -/
def instrument (t : Threshold) (options : InstrumentOptions) : Edit FunctionReport := do
  let ids ← query workList
  let report ← ids.foldlM (instrumentInst t options) { function := (← get).name }
  if options.emitMetadata then
    let _ ← report.checks.emitMetadata
  return report

end Edit

end ArithWatch
