import AssignLang.Store
import AssignLang.Text.Lines

namespace AssignLang

/-- A whole C program: assignments between the declaration of their variables and the printing of
the values these have in the end. -/
structure Listing where
  code : Text
  store : Store

namespace Listing

def header : List Text := ["#include <stdio.h>".toList,"int main() \x7b".toList]

def printing (x : Text) : Text :=
  "printf(\"".toList ++ x ++ " = %g\\n\", ".toList ++ x ++ ");".toList

def footer : List Text := ["return 0;".toList,['\x7d']]

def lines (l : Listing) : List Text :=
  header ++ l.store.declarationLines ++ l.code.lines ++ l.store.names.map printing ++ footer

def render (l : Listing) : Text := Text.join ['\n'] l.lines ++ ['\n']

end Listing
end AssignLang
