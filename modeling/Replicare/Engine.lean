import Mathlib.Data.Nat.Basic

/-! The engine-neutral vocabulary the pipeline is written in: table and target
names, captured deltas, retention limits and cursors. Nothing here reads a
database. -/
namespace Replicare.Engine

abbrev Bytes := List UInt8

structure TableRef where
  schema : String
  name : String
  deriving DecidableEq, Repr

def TableRef.string (t : TableRef) : String := if t.schema = "" then t.name else t.schema++"."++t.name

structure Column where
  name : String
  dataType : String
  nullable : Bool
  generated : Bool
  charset : String
  deriving DecidableEq, Repr

structure Key where
  name : String
  columns : List String
  isPrimary : Bool
  deriving DecidableEq, Repr

structure ForeignKey where
  name : String
  child : TableRef
  childCols : List String
  parent : TableRef
  parentCols : List String
  deferrable : Bool
  deriving DecidableEq, Repr

structure Table where
  ref : TableRef
  columns : List Column
  primaryKey : Option Key
  uniqueKeys : List Key
  foreignKeys : List ForeignKey
  storageEngine : String
  deriving DecidableEq, Repr

def Table.hasUsableKey (t : Table) : Bool := t.primaryKey.isSome || !t.uniqueKeys.isEmpty

def replicationKey (t : Table) : Option Key := t.primaryKey.or t.uniqueKeys.head?

structure Component where
  tables : List TableRef
  order : List TableRef
  cyclic : List TableRef
  deriving DecidableEq, Repr

def Component.hasCycle (c : Component) : Bool := !c.cyclic.isEmpty

inductive Severity where
  | info
  | warn
  | block
  deriving DecidableEq, Repr

structure Finding where
  severity : Severity
  table : TableRef
  category : String
  message : String
  deriving DecidableEq, Repr

structure SkippedTable where
  table : TableRef
  reason : String
  deriving DecidableEq, Repr

structure PreflightReport where
  sync : String
  sourceVersion : Int
  targetVersion : Int
  replicable : List TableRef
  skipped : List SkippedTable
  components : List Component
  findings : List Finding
  deriving DecidableEq, Repr

def PreflightReport.blocked (r : PreflightReport) : Bool := r.findings.any (·.severity == .block)

/- The two relational engines. -/
inductive Dialect where
  | postgres
  | mysql
  deriving DecidableEq, Repr

abbrev TargetID := String
abbrev DeltaID := Nat

inductive Op where
  | insert
  | update
  | delete
  deriving DecidableEq, Repr

/- A key value as the readers hand it over: text or raw bytes, or a NULL. -/
abbrev KeyValues := List (Option Bytes)

instance : LawfulBEq (Option Bytes) := inferInstance
instance : LawfulBEq KeyValues := inferInstance

structure DirtyKey (K : Type*) where
  deltaID : DeltaID
  op : Op
  key : K
  deriving DecidableEq, Repr

/- Zero or a negative limit is no limit. -/
structure RetentionPolicy where
  maxAgeSeconds : Int
  maxBytes : Int
  deriving DecidableEq, Repr

structure PurgeStats where
  deltasPurged : Nat
  targetsReseeded : List TargetID
  deriving DecidableEq, Repr

structure DeltaBacklog where
  rows : Nat
  bytes : Int
  oldestAge : Int
  hasBacklog : Bool
  deriving DecidableEq, Repr

inductive Phase where
  | initialCopy
  | streaming
  deriving DecidableEq, Repr

structure Cursor where
  phase : Phase
  needsReseed : Bool
  deriving DecidableEq, Repr

/- Two tables that refer to each other, for the examples of the other modules. -/
def users : TableRef := ⟨"public","users"⟩
def orders : TableRef := ⟨"public","orders"⟩
def lastOrder : ForeignKey := ⟨"users_last_order_fkey",users,["last_order"],orders,["id"],false⟩
def ofUser : ForeignKey := ⟨"orders_user_id_fkey",orders,["user_id"],users,["id"],false⟩

def column (name : String) (nullable : Bool) : Column := ⟨name,"bigint",nullable,false,""⟩

def shopTables : List Table :=
  [⟨orders,[column "id" false,column "user_id" true],some ⟨"orders_pkey",["id"],true⟩,[],[ofUser],"InnoDB"⟩,
    ⟨users,[column "id" false,column "last_order" true],some ⟨"users_pkey",["id"],true⟩,[],[lastOrder],"InnoDB"⟩]

end Replicare.Engine
