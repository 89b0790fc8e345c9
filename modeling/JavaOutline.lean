import JavaOutline.Batch.Reader
import JavaOutline.Export.Diagram
import JavaOutline.Export.Document
import JavaOutline.Export.Listing
import JavaOutline.Json.Summaries
import JavaOutline.Statement.Position
import JavaOutline.Proofs.Registration
import JavaOutline.Proofs.SideBySide
import JavaOutline.Proofs.Batches
import JavaOutline.Proofs.Counting
import JavaOutline.Proofs.Invisible.Code
import JavaOutline.Proofs.Invisible.Statements
import JavaOutline.Proofs.Places
import JavaOutline.Proofs.Alike
import JavaOutline.Proofs.Invisible.Outline
import JavaOutline.Proofs.Comments
import JavaOutline.Proofs.Layout.Lexemes
import JavaOutline.Proofs.Layout.Passing
import JavaOutline.Proofs.Grammar.Types
import JavaOutline.Proofs.Grammar.Variables
import JavaOutline.Proofs.Grammar.Methods
import JavaOutline.Proofs.Grammar.Headers
import JavaOutline.Proofs.Grammar.Balance
import JavaOutline.Proofs.Grammar.Statements
import JavaOutline.Proofs.Grammar.Units
import JavaOutline.Proofs.Layout.Loose
import JavaOutline.Proofs.Frames
import JavaOutline.Proofs.Grammar.Expressions
import JavaOutline.Proofs.Grammar.Blocks
import JavaOutline.Proofs.Grammar.Calls
import JavaOutline.Proofs.Grammar.Locals
import JavaOutline.Proofs.Grammar.Spelling
import JavaOutline.Proofs.Grammar.Wildcards
import JavaOutline.Proofs.Grammar.Parameters
import JavaOutline.Proofs.Grammar.TypeParameters
import JavaOutline.Proofs.Grammar.Signatures
import JavaOutline.Proofs.Layout.Values
import JavaOutline.Proofs.Grammar.Declarators
import JavaOutline.Proofs.Grammar.EnumConstants
import JavaOutline.Proofs.Annotations
import JavaOutline.Proofs.Grammar.AnnotatedMembers
import JavaOutline.Proofs.Onward
import JavaOutline.Proofs.Sessions
import JavaOutline.Proofs.WithoutLocals
import JavaOutline.Proofs.OwnText
import JavaOutline.Proofs.Growth
import JavaOutline.Proofs.Scopes
import JavaOutline.Proofs.Shadowing
import JavaOutline.Proofs.Relations
import JavaOutline.Proofs.Rebuilding
import JavaOutline.Proofs.Merging
import JavaOutline.Proofs.Reordering
import JavaOutline.Proofs.Documents
import JavaOutline.Proofs.OuterTypes
import JavaOutline.Proofs.TypeForest
import JavaOutline.Proofs.Siblings
import JavaOutline.Proofs.CodeRecords
import JavaOutline.Proofs.Placement
import JavaOutline.Proofs.Leaving
import JavaOutline.Proofs.Lexical.Matching
import JavaOutline.Proofs.Snapshots
import JavaOutline.Proofs.Routes
import JavaOutline.Proofs.Grammar.GenericHeadings
import JavaOutline.Proofs.Grammar.AnnotatedSignatures
import JavaOutline.Proofs.Grammar.ModifierLists
import JavaOutline.Proofs.Grammar.ErasedTypeParameters
import JavaOutline.Proofs.Trimming
import JavaOutline.Proofs.Discovery
import JavaOutline.Proofs.Diagrams
import JavaOutline.Proofs.Listings
