import DocHarvest.Data.Json.Printer
import DocHarvest.Record

set_option autoImplicit false

namespace DocHarvest

namespace Value

def ofFields (fields : List (String × Value)) : Value :=
  .record (fields.map fun (k, v) => (k.toList, v))

def ofList {α : Type} (f : α → Value) (items : List α) : Value := .list (items.map f)

end Value

def Param.value (p : Param) : Value :=
  .ofFields [("name", .text p.name), ("type", .text p.type), ("description", .text p.description),
    ("optional", .bool p.optional)]

def Returns.value (r : Returns) : Value :=
  .ofFields [("type", .text r.type), ("description", .text r.description)]

def Generic.value (g : Generic) : Value :=
  .ofFields [("name", .text g.name), ("type", .text g.type)]

def Example.value (e : Example) : Value :=
  .ofFields [("lang", .text e.lang), ("code", .text e.code)]

def Record.value (r : Record) : Value :=
  .ofFields [("name", .text r.name), ("params", .ofList Param.value r.params),
    ("returns", r.returns.value), ("generics", .ofList Generic.value r.generics),
    ("description", .text r.description), ("examples", .ofList Example.value r.examples),
    ("line", .number (Number.ofInt r.line))]

structure FileRecords where
  file : Text
  records : List Record
  deriving DecidableEq, Repr

def FileRecords.value (f : FileRecords) : Value :=
  .ofFields [("file", .text f.file), ("functions", .ofList Record.value f.records)]

structure Document where
  files : List FileRecords
  deriving DecidableEq, Repr

namespace Document

def value (d : Document) : Value := .ofFields [("files", .ofList FileRecords.value d.files)]

def recordCount (d : Document) : Nat := (d.files.flatMap fun f => f.records).length

end Document

def Json.page (v : Value) : Text := Json.indented v ++ ['\n']

end DocHarvest
