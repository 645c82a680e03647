import Codemod.Catalog.Argument
import Codemod.Catalog.Builder
import Codemod.Catalog.ClassConstant
import Codemod.Catalog.Rename
import Codemod.Catalog.Wrap

/-!
The rules that can be configured, by id.
-/

namespace Codemod

namespace Catalog

structure Entry where
  id : String
  description : String
  create : Params → Except SpecError Rule

def entries : List Entry :=
  [⟨"rename_function", "Rename function calls based on configurable mapping",
      fun params => (RenameFunction.ofParams params).map RenameFunction.rule⟩,
    ⟨"rename_method", "Rename method calls based on configurable mapping",
      fun params => (RenameMethod.ofParams params).map RenameMethod.rule⟩,
    ⟨"new_to_builder", "Turn a constructor call into a builder call on a replacement class",
      fun params => (NewToBuilder.ofParams params).map NewToBuilder.rule⟩,
    ⟨"rename_type", "Rename classes used in parameter and return types",
      fun params => (RenameType.ofParams params).map RenameType.rule⟩,
    ⟨"wrap_arguments", "Wrap method arguments in value objects, optionally renaming the method",
      fun params => (WrapArguments.ofParams params).map WrapArguments.rule⟩,
    ⟨"remove_argument", "Remove an argument of matching function or method calls",
      fun params => (RemoveArgument.ofParams params).map RemoveArgument.rule⟩,
    ⟨"string_to_class_constant",
      "Replace string arguments by class name or class constant references",
      fun params => (StringToClassConstant.ofParams params).map StringToClassConstant.rule⟩,
    ⟨"rename_method_by_argument", "Rename a method call by the value of one of its arguments",
      fun params => (RenameMethodByArgument.ofParams params).map RenameMethodByArgument.rule⟩,
    ⟨"extract_chain_arguments", "Flatten a builder chain argument into positional arguments",
      fun params => (ExtractChainArguments.ofParams params).map ExtractChainArguments.rule⟩]

def find? (id : String) : Option Entry :=
  entries.find? fun entry => entry.id == id

def contains (id : String) : Bool :=
  (find? id).isSome

end Catalog

def RuleSpec.create (spec : RuleSpec) : Except SpecError Rule :=
  match Catalog.find? spec.id with
  | some entry => entry.create ⟨entry.id, spec.params⟩
  | none => .error (.unknownRule spec.id)

def Catalog.build (specs : List RuleSpec) : Except SpecError (List Rule) :=
  specs.mapM RuleSpec.create

end Codemod
