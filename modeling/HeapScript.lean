import HeapScript.Main
import HeapScript.Proofs.Assembly.Stages
import HeapScript.Proofs.FreeNames.Loads
import HeapScript.Proofs.FreeNames.Substitution
import HeapScript.Proofs.Output.BodyTree
import HeapScript.Proofs.Output.FreshNames
import HeapScript.Proofs.Output.Interleaving
import HeapScript.Proofs.Script.CapturedBindings
import HeapScript.Proofs.Script.Classes
import HeapScript.Proofs.Script.Construction
import HeapScript.Proofs.Script.Effects
import HeapScript.Proofs.Script.Identifiers
import HeapScript.Proofs.Script.InventedNames
import HeapScript.Proofs.Script.LazyObjects
import HeapScript.Proofs.Script.LazyReferences
import HeapScript.Proofs.Script.Locations
import HeapScript.Proofs.Script.Properties
import HeapScript.Proofs.Script.RootOrder
import HeapScript.Proofs.Script.ScopeVariables
import HeapScript.Proofs.Script.Shadowing
import HeapScript.Proofs.Script.Termination
import HeapScript.Proofs.Syntax.Indentation
import HeapScript.Proofs.Syntax.Reading
