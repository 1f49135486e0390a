import Schemata.Ty.Build

/-!
# Schemas, tables and databases

Columns group into schemas, a named schema is a table, and tables group
into databases. A schema and a database carry the fact that their names
are distinct. Both keep the declared order, and neither looks at it when
compared.
-/

namespace Schemata

/-! ## Columns -/

structure Column where
  name : String
  type : Ty

namespace Column

def render (c : Column) : String := Ty.fieldText c.name c.type.signature

protected def beq (c d : Column) : Bool :=
  c.name == d.name && c.type == d.type

instance : BEq Column := ⟨Column.beq⟩

/-- The first of equal columns, in order. -/
def distinct (columns : List Column) : List Column :=
  columns.foldl
    (fun kept c => if kept.contains c then kept else kept ++ [c]) []

end Column

/-! ## Schemas -/

structure Schema where
  columns : List Column
  distinct : Names.repeated? (columns.map Column.name) = none

namespace Schema

def empty : Schema := ⟨[], rfl⟩

instance : Inhabited Schema := ⟨empty⟩

/-- Refuses the first column name that comes a second time. -/
def ofColumns (columns : List Column) : Except Error Schema :=
  match h : Names.repeated? (columns.map Column.name) with
  | some name => .error (.duplicateName name "schema")
  | none => .ok ⟨columns, h⟩

def column? (s : Schema) (name : String) : Option Column :=
  s.columns.find? fun c => c.name == name

def types (s : Schema) : List Ty := s.columns.map Column.type

def fields (s : Schema) : List (String × Ty) :=
  s.columns.map fun c => (c.name, c.type)

/-- The anonymous struct with one field for each column. -/
def structType (s : Schema) : Except Error Ty := Ty.structOf none s.fields

def render (s : Schema) : String :=
  "(" ++ Text.join ", " (s.columns.map Column.render) ++ ")"

protected def beq (s t : Schema) : Bool :=
  s.columns.length == t.columns.length &&
    s.columns.all fun c => t.column? c.name == some c

instance : BEq Schema := ⟨Schema.beq⟩

end Schema

/-! ## Tables -/

structure Table where
  name : String
  schema : Schema

namespace Table

/-- The struct of a row, named after the table. -/
def rowType (t : Table) : Except Error Ty :=
  Ty.structOf (some t.name) t.schema.fields

protected def beq (t u : Table) : Bool :=
  t.name == u.name && t.schema == u.schema

instance : BEq Table := ⟨Table.beq⟩

end Table

/-! ## Databases -/

structure Database where
  name : String
  tables : List Table
  distinct : Names.repeated? (tables.map Table.name) = none

namespace Database

/-- Refuses the first table name that comes a second time. -/
def ofTables (name : String) (tables : List Table) : Except Error Database :=
  match h : Names.repeated? (tables.map Table.name) with
  | some table => .error (.duplicateName table ("database " ++ name))
  | none => .ok ⟨name, tables, h⟩

def table? (d : Database) (name : String) : Option Table :=
  d.tables.find? fun t => t.name == name

protected def beq (d e : Database) : Bool :=
  d.name == e.name && d.tables.length == e.tables.length &&
    d.tables.all fun t => e.table? t.name == some t

instance : BEq Database := ⟨Database.beq⟩

end Database

end Schemata
