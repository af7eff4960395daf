import CypherTraversal.Run.Step

/-! # Running traversals

Every step means a stage: a process, a process that takes the modulators behind it, or such a
modulator. The stages of a traversal run one after another; a modulator that no stage takes is an
error when its turn comes. -/

namespace CypherTraversal

/-- A step, or a modulator with the text that names it in an error. -/
inductive Stage where
  | process (p : Process)
  | modulated (f : List Modulator → Process)
  | modulator (m : Modulator) (text : String)

namespace Stage

def modulators : List Stage → List Modulator
  | .modulator m _ :: rest => m :: modulators rest
  | _ => []

/-- Modulators are passed over if the step in front has taken them. -/
def runFrom : (taken : Bool) → List Stage → Process
  | _, [] => fun ts => return ts
  | true, .modulator _ _ :: rest => runFrom true rest
  | false, .modulator _ text :: _ => fun _ => throw (.strayModulator text)
  | _, .process p :: rest => p.andThen (runFrom false rest)
  | _, .modulated f :: rest => (f (modulators rest)).andThen (runFrom true rest)

def run (ss : List Stage) : Process :=
  runFrom false ss

end Stage

namespace Step

mutual

def stage (ps : Parameters) : Step → Stage
  | vertices => .process .vertices
  | inject vs => .process fun ts => return ts ++ vs.map fun v => { object := .ofValue v }
  | hasLabel labels => .process (.keepIn fun g x => (g.label? x).any labels.contains)
  | has key => .process (.keepIn fun g x => (g.property? key x).isSome)
  | hasNot key => .process (.keepIn fun g x => (g.property? key x).isNone)
  | hasPredicate key p => .process (.hasPredicate ps key p)
  | is p => .process (.satisfies ps p)
  | wherePredicate p => .process (.satisfies ps p)
  | .filter t => .process (.keep (Process.leads (Stage.run (stages ps t))))
  | .not t => .process (.keep fun u => return !(← Process.leads (Stage.run (stages ps t)) u))
  | .and ts => .process (.keep fun u => Process.allLead u (runEach ps ts))
  | .or ts => .process (.keep fun u => Process.someLeads u (runEach ps ts))
  | edges d labels => .process (.eachRow fun t => return (← Run.graph).edgesFrom d labels t)
  | endpoint e => .process (.moveIn fun g t => (g.endpoint? e t).map .vertex)
  | mark l => .process fun ts => return ts.map fun t => t.mark l
  | select l => .process (.select l)
  | selectColumn c => .process (.moveIn fun _ t => Process.sides? c t.object)
  | values key => .process (.moveIn fun g t => (g.property? key t.object).map .ofValue)
  | properties key => .process (.moveIn fun g t => (g.property? key t.object).map .ofValue)
  | value => .process fun ts => return ts
  | identity => .process fun ts => return ts
  | barrier => .process fun ts => return ts
  | id => .process (.moveIn fun _ t => Process.identifier? t.object)
  | label => .process (.moveIn fun g t => (g.label? t.object).map .str)
  | constant o => .process (.move fun t => return some (← Run.ofExcept (o.resolve ps t)))
  | project keys => .modulated (.project keys)
  | unfold => .process .unfold
  | fold => .process (.collect fun xs => .ok [.list xs])
  | reduce r => .process (.collect (Process.reduce r))
  | dedup => .process fun ts => return Process.dedup ts
  | group => .modulated .group
  | order => .modulated .order
  | skip n => .process (.skip ps n)
  | limit n => .process (.limit ps n)
  | range low high => .process (.range ps low high)
  | union ts => .process (.eachRow fun u => Process.union u (runEach ps ts))
  | choose c y n =>
    .process (.choose (Stage.run (stages ps c)) (Stage.run (stages ps y)) (Stage.run (stages ps n)))
  | coalesce ts => .process (.eachRow fun u => Process.coalesce u (runEach ps ts))
  | flatMap t => .process (.eachRow (Process.on (Stage.run (stages ps t))))
  | addVertex l => .process (.addVertex l)
  | addEdge l => .modulated (.addEdge l)
  | property key t => .process (.setProperty key (Stage.run (stages ps t)))
  | .by t => .modulator (.by (Stage.run (stages ps t))) (inspect (.by t))
  | byOrder t o => .modulator (.byOrder (Stage.run (stages ps t)) o) (inspect (byOrder t o))
  | fromLabel l => .modulator (.fromLabel l) (inspect (fromLabel l))
  | toLabel l => .modulator (.toLabel l) (inspect (toLabel l))

def stages (ps : Parameters) : List Step → List Stage
  | [] => []
  | s :: ss => stage ps s :: stages ps ss

def runEach (ps : Parameters) : List (List Step) → List Process
  | [] => []
  | t :: ts => Stage.run (stages ps t) :: runEach ps ts

end

end Step

namespace Traversal

def run (ps : Parameters) (t : Traversal) : Process :=
  Stage.run (Step.stages ps t)

def input : Traversal → List Traverser
  | .inject _ :: _ => []
  | _ => [{ object := .null }]

def results (ps : Parameters) (t : Traversal) : Run (List Value) := do
  let ts ← t.run ps t.input
  Run.ofExcept (Object.toValues (← Run.graph) (ts.map Traverser.object))

def execute (t : Traversal) (ps : Parameters) (g : Graph) : Except Error (List Value) × Graph :=
  (t.results ps).run.run g

end Traversal
end CypherTraversal
