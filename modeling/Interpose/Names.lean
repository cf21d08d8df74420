/-!
# Class names

A class is written `java.lang.String` in source text and `java/lang/String` inside a class file.
The two spellings differ in the separator only, so each conversion is a map over the characters.
-/

namespace Interpose

/-- The source-level spelling of a class-file name: every `/` becomes a dot. -/
def toJavaName (internal : String) : String :=
  internal.map fun c => if c = '/' then '.' else c

/-- The class-file spelling of a source-level name: every dot becomes `/`. -/
def toInternalName (java : String) : String :=
  java.map fun c => if c = '.' then '/' else c

/-- The root of the class hierarchy. -/
def objectClass : String := "java/lang/Object"

/-- The root of everything that can be thrown. -/
def throwableClass : String := "java/lang/Throwable"

/-- The class of string constants. -/
def stringClass : String := "java/lang/String"

/-- The name of instance initialisers. -/
def constructorName : String := "<init>"

/-- The name of the static initialiser. -/
def staticInitializerName : String := "<clinit>"

end Interpose
