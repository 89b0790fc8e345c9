import JavaOutline.Proofs.Alike

/-!
# JavaOutline.Proofs.Invisible.Outline

Texts that hold the same code declare the same types, since scanning keeps them so
(`SameCode.keptByScan`).
-/

namespace JavaOutline

/-- Texts that hold the same code have the same statements. -/
theorem SameCode.shapes_eq {text text' : List Char} (h : SameCode text text') :
    shapes text = shapes text' :=
  keptByScan.shapes_eq h

/-- Texts that hold the same code have the same outline. -/
theorem outline_eq_of_sameCode {s t : String} (h : SameCode s.toList t.toList)
    (withLocals : Bool) : outline withLocals s = outline withLocals t :=
  SameCode.keptByScan.outline_eq h withLocals

/-- **What is invisible does not count.**  Two texts that hold the same
code, whatever their blanks, the contents of their comments and the
contents of their literals, are read into the same registry with the same
names, from whatever registry and with or without the variables of method
bodies; and they have the same statements, with the same tokens and endings
of the same kinds. -/
theorem readText_eq_of_sameCode {s t : String} (h : SameCode s.toList t.toList) :
    (∀ (r : Registry) (withLocals : Bool), r.readText withLocals s = r.readText withLocals t) ∧
      (statements s.toList).map (fun found => found.1.shape) =
        (statements t.toList).map (fun found => found.1.shape) := by
  constructor
  · intro r withLocals
    rw [Registry.readText_eq, Registry.readText_eq, outline_eq_of_sameCode h]
  · exact SameCode.shapes_eq h

/-- Two texts of a class with a constant and a quotient. -/
theorem readText_eq_of_sameCode_braces :
    let s := "class A\x7b/*\x7d*/char c='\x7d';//\x7b\nint n=4/ 2;\x7d"
    let t := "class\nA\x7b/**/char\tc='d';//\nint  n=4/\n2;\x7d"
    SameCode s.toList t.toList ∧
      (∀ (r : Registry) (withLocals : Bool), r.readText withLocals s = r.readText withLocals t) ∧
      (statements s.toList).map (fun found => found.1.shape) =
        (statements t.toList).map (fun found => found.1.shape) := by
  intro s t
  have hdivisor : SameCode ([' '] ++ "2;\x7d".toList) (['\n'] ++ "2;\x7d".toList) :=
    .blanks (by decide) (by decide) (by decide) (by decide)
      (SameCode.nil.code_append "2;\x7d".toList (by decide))
  have hquotient : SameCode ([' '] ++ "n=4/ 2;\x7d".toList) ([' ', ' '] ++ "n=4/\n2;\x7d".toList) :=
    .blanks (by decide) (by decide) (by decide) (by decide)
      ((hdivisor.slash (by decide) (by decide)).code_append "n=4".toList (by decide))
  have hnumber : SameCode (';' :: '/' :: '/' :: (['\x7b'] ++ '\n' :: "int n=4/ 2;\x7d".toList))
      (';' :: '/' :: '/' :: ([] ++ '\n' :: "int  n=4/\n2;\x7d".toList)) :=
    (SameCode.lineComment (by decide) (by decide)
      (hquotient.code_append "int".toList (by decide))).code_append [';'] (by decide)
  have hconstant : SameCode ('\'' :: (['\x7d'] ++ '\'' :: ";//\x7b\nint n=4/ 2;\x7d".toList))
      ('\'' :: (['d'] ++ '\'' :: ";//\nint  n=4/\n2;\x7d".toList)) :=
    .literal (by decide) (.plain (by decide) (by decide) .nil)
      (.plain (by decide) (by decide) .nil) hnumber
  have hmember : SameCode ([' '] ++ "c='\x7d';//\x7b\nint n=4/ 2;\x7d".toList)
      (['\t'] ++ "c='d';//\nint  n=4/\n2;\x7d".toList) :=
    .blanks (by decide) (by decide) (by decide) (by decide)
      (hconstant.code_append "c=".toList (by decide))
  have hbody : SameCode
      ('/' :: '*' :: (['\x7d'] ++ '*' :: '/' :: "char c='\x7d';//\x7b\nint n=4/ 2;\x7d".toList))
      ('/' :: '*' :: ([] ++ '*' :: '/' :: "char\tc='d';//\nint  n=4/\n2;\x7d".toList)) :=
    .blockComment (by decide) (by decide) (hmember.code_append "char".toList (by decide))
  have hheader : SameCode ([' '] ++ "A\x7b/*\x7d*/char c='\x7d';//\x7b\nint n=4/ 2;\x7d".toList)
      (['\n'] ++ "A\x7b/**/char\tc='d';//\nint  n=4/\n2;\x7d".toList) :=
    .blanks (by decide) (by decide) (by decide) (by decide)
      (hbody.code_append "A\x7b".toList (by decide))
  have hcode : SameCode s.toList t.toList := by
    have hs : s.toList = "class".toList ++ ([' '] ++
        "A\x7b/*\x7d*/char c='\x7d';//\x7b\nint n=4/ 2;\x7d".toList) := by decide
    have ht : t.toList = "class".toList ++ (['\n'] ++
        "A\x7b/**/char\tc='d';//\nint  n=4/\n2;\x7d".toList) := by decide
    rw [hs, ht]
    exact hheader.code_append "class".toList (by decide)
  exact ⟨hcode, readText_eq_of_sameCode hcode⟩

end JavaOutline
