import Replicare.RowLoad

/-! The bring-up of a MySQL component with a cycle. -/
namespace Replicare.MysqlCyclic
open Engine Relations Chunks ChunkNulls ChunkBlocks FkGraph RowLoad

abbrev CyclicComponentCopier := List TableRef → List Tagged → Option (List Tagged)

def copyCyclicComponent (site : Site) (copier : Option CyclicComponentCopier) (schedule : Schedule)
    (comp : Component) (db : List Tagged) : Option (List Tagged) :=
  match copier with
  | none => copyComponent site schedule comp.order db
  | some copy => copy comp.order db

def copyAndCutover (site : Site) (copier : Option CyclicComponentCopier) (schedule : Schedule)
    (comp : Component) (db : List Tagged) : Option (List Tagged) :=
  if comp.hasCycle then copyCyclicComponent site copier schedule comp db else copyComponent site schedule comp.order db

def mysqlCopier : Option CyclicComponentCopier := none

theorem mysqlPlain (site) (schedule comp db) :
    copyAndCutover site mysqlCopier schedule comp db = copyComponent site schedule comp.order db := by
  unfold copyAndCutover
  split <;> rfl

end Replicare.MysqlCyclic
