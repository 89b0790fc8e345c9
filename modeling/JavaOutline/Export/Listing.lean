import JavaOutline.Registry

/-!
# JavaOutline.Export.Listing

The plain listing of records: a header line, a line for each field, and a
line for each method followed by its local variables.

    class Invoice extends Document implements Payable, Printable inside Office
     - total : long
     + pay(amount : long) : boolean
       * rest : long
-/

namespace JavaOutline

namespace TypeRecord

/-- The first line of a record: kind, name, and the types it names. -/
def headerLine (t : TypeRecord) : String :=
  t.kind.keyword ++ " " ++ t.name ++ ((t.superName.map (" extends " ++ ·)).getD "") ++
    (if t.interfaceNames.isEmpty then ""
      else " implements " ++ ", ".intercalate t.interfaceNames) ++
    ((t.outerName.map (" inside " ++ ·)).getD "")

/-- The lines of a method and its local variables. -/
def methodLines (m : Method) : List String :=
  (" " ++ m.text) :: m.locals.map fun v => "   * " ++ v.text

/-- The lines of a record. -/
def lines (t : TypeRecord) : List String :=
  t.headerLine :: (t.fields.map fun f => " " ++ f.text) ++ t.methods.flatMap methodLines

/-- The listing of a record. -/
def listing (t : TypeRecord) : String := String.join (t.lines.map (· ++ "\n"))

end TypeRecord

/-- The listing of every record, in the order of registration. -/
def Registry.listing (r : Registry) : String := String.join (r.toList.map TypeRecord.listing)

end JavaOutline
