import RangeFlow.Assertion.Fact

/-! # Inserting assertions

Every fact becomes an assignment of a new name, which equals the old one and is known to satisfy
the predicate. An edge into a block with several predecessors gets a block of its own for it. Uses
that an assertion dominates then read the new name of the nearest one.
-/

namespace RangeFlow

/-- An assertion that has been inserted. -/
structure AssertionRecord where
  /-- The name the fact is about. -/
  subject : NameId
  /-- The new name, for which the fact is known. -/
  derived : NameId
  block : BlockId
  predicate : Predicate
  deriving Repr, DecidableEq

/-- The place of an assertion in a block. -/
inductive Slot where
  /-- In front of all statements. -/
  | start
  /-- Behind a statement. -/
  | after (index : Nat)
  deriving Repr, DecidableEq

/-- A new statement and its place in a function. -/
structure Insertion where
  block : BlockId
  slot : Slot
  stmt : Stmt
  deriving Repr, DecidableEq

namespace Function

/-- The ends of an edge into a block that has other predecessors. -/
def splitEnds? (f : Function) : Locus → Option (BlockId × BlockId)
  | .edge id =>
      (f.edge? id).bind fun e =>
        if (f.predEdges e.dst).length = 1 then none else some (e.src, e.dst)
  | .after _ _ => none

/-- The ends of all edges that need a block of their own, each once. -/
def edgesToSplit (f : Function) (loci : List AssertLocus) : List (BlockId × BlockId) :=
  (loci.filterMap fun l => f.splitEnds? l.locus).eraseDups

/-- The merge with another predecessor in place of one. -/
def redirectFrom (old new : BlockId) (phi : Phi) : Phi :=
  { phi with operands := phi.operands.map fun o =>
      if o.predecessor = old then { o with predecessor := new } else o }

/-- Put a new block on the edge between two blocks. -/
def splitEdge (f : Function) (ends : BlockId × BlockId) : Function :=
  let (src, dst) := ends
  let (f, new) := f.addBlock { Block.ofTerminator (.jump dst) with split := true }
  let f := f.modifyBlock src fun b =>
    { b with terminator := b.terminator.retarget fun t => if t = dst then new else t }
  f.modifyBlock dst fun b => { b with phis := b.phis.map (redirectFrom src new) }

/-- The block and slot for a fact, when the given edges get blocks of their own, the first of them
    the next free number. -/
def placeOf? (f : Function) (splits : List (BlockId × BlockId)) : Locus → Option (BlockId × Slot)
  | .after block index => some (block, .after index)
  | .edge id =>
      match f.splitEnds? (.edge id) with
      | some ends => (splits.findIdx? (· == ends)).map fun i => (f.blockCount + i, .start)
      | none => (f.edge? id).map fun e => (e.dst, .start)

/-- The facts that have a place, with their places. -/
def placements (f : Function) (loci : List AssertLocus) : List (AssertLocus × BlockId × Slot) :=
  let splits := f.edgesToSplit loci
  loci.filterMap fun l => (f.placeOf? splits l.locus).map (l, ·)

/-- The statements of a block with the new ones in their places. -/
def insertStmts (insertions : List Insertion) (block : BlockId) (stmts : List Stmt) : List Stmt :=
  let fill (slot : Slot) :=
    (insertions.filter fun i => i.block == block && i.slot == slot).map Insertion.stmt
  fill .start ++ stmts.zipIdx.flatMap fun (stmt, index) => stmt :: fill (.after index)

/-- The function with new names and new statements. -/
def insertAll (f : Function) (names : List NameInfo) (insertions : List Insertion) : Function :=
  { f with
    names := f.names ++ names
    blocks := f.blocks.zipIdx.map fun (b, id) =>
      { b with stmts := insertStmts insertions id b.stmts } }

/-- The points behind which the assertions hold: per assertion the statement that makes it. -/
def assertionPoints (f : Function) (records : List AssertionRecord) :
    List (AssertionRecord × Point) :=
  records.filterMap fun r =>
    match f.defSite? r.derived with
    | some (.stmt block index) => some (r, ⟨block, .before index⟩)
    | _ => none

/-- Of two assertions that dominate one point, the nearer one: deeper, or later in its block. -/
def nearer (t : DominatorTree) (best : Option (AssertionRecord × Point))
    (next : AssertionRecord × Point) : Option (AssertionRecord × Point) :=
  match best with
  | none => some next
  | some (r, p) =>
      let q := next.2
      if t.depth q.block < t.depth p.block ∨
          (t.depth q.block = t.depth p.block ∧ q.position.lt p.position) then some (r, p)
      else some next

/-- The name to read for a name at a point: that of the nearest assertion about it which strictly
    dominates the point, or the name itself. -/
def nameAt (t : DominatorTree) (points : List (AssertionRecord × Point)) (point : Point)
    (name : NameId) : NameId :=
  let before := points.filter fun (r, p) => r.subject == name && p.strictlyDominates t point
  match before.foldl (nearer t) none with
  | some (r, _) => r.derived
  | none => name

/-- The block with other names in place of those it reads, by the point where they are read. -/
def renameBlock (nameAt : Point → NameId → NameId) (id : BlockId) (b : Block) : Block :=
  { b with
    phis := b.phis.map fun phi =>
      { phi with operands := phi.operands.map fun o =>
          { o with value := o.value.rename (nameAt ⟨o.predecessor, .blockEnd⟩) } }
    stmts := b.stmts.zipIdx.map fun (stmt, index) => stmt.rename (nameAt ⟨id, .before index⟩)
    terminator := b.terminator.rename (nameAt ⟨id, .blockEnd⟩) }

/-- Let every use that an assertion dominates read the nearest one. -/
def renameDominatedUses (f : Function) (records : List AssertionRecord) : Function :=
  let t := f.dominators
  let points := f.assertionPoints records
  { f with blocks := f.blocks.zipIdx.map fun (b, id) => renameBlock (nameAt t points) id b }

/-- Insert the given facts as assertions. -/
def materialize (f : Function) (loci : List AssertLocus) : Function × List AssertionRecord :=
  let placed := f.placements loci
  let records := placed.zipIdx.map fun ((l, block, _), i) =>
    { subject := l.name, derived := f.nameCount + i, block, predicate := l.predicate }
  let insertions := placed.zipIdx.map fun ((l, block, slot), i) =>
    { block, slot, stmt := .assign (f.nameCount + i) (.assert l.name l.predicate) }
  let names := placed.map fun (l, _) => ⟨f.typeOf l.name, .defined⟩
  let g := ((f.edgesToSplit loci).foldl splitEdge f).insertAll names insertions
  (g.renameDominatedUses records, records)

/-- Find facts and insert them as assertions. -/
def insertAssertions (f : Function) (config : Config) : Function × List AssertionRecord :=
  match f.findAssertions config with
  | [] => (f, [])
  | loci => f.materialize loci

end Function

end RangeFlow
