import ScriptLang.Assoc
import ScriptLang.Number
import ScriptLang.Token.Scan
import ScriptLang.Token.Json
import ScriptLang.Token.Reader
import ScriptLang.Diagnostic
import ScriptLang.Tree.Printer
import ScriptLang.Tree.Parser
import ScriptLang.Scope
import ScriptLang.Check
import ScriptLang.Frame.Access
import ScriptLang.Value
import ScriptLang.Machine
import ScriptLang.Eval
import ScriptLang.Session
import ScriptLang.CommandLine
import ScriptLang.Main
import ScriptLang.Proofs.Parsing.Phrase
import ScriptLang.Proofs.Parsing.Soundness
import ScriptLang.Proofs.Parsing.Opening
import ScriptLang.Proofs.Parsing.Progress
import ScriptLang.Proofs.Parsing.Completeness
import ScriptLang.Proofs.Parsing.Derivation
import ScriptLang.Proofs.Parsing.Excess
import ScriptLang.Proofs.Parsing.Acceptance
import ScriptLang.Proofs.Parsing.Rendering
import ScriptLang.Proofs.Parsing.RoundTrip
import ScriptLang.Proofs.Parsing.Moved
import ScriptLang.Proofs.Parsing.Lockstep
import ScriptLang.Proofs.Parsing.Neighbours
import ScriptLang.Proofs.Scanning.Words
import ScriptLang.Proofs.Scanning.Seam
import ScriptLang.Proofs.Scanning.Lexemes
import ScriptLang.Proofs.Scanning.LongestMatch
import ScriptLang.Proofs.Scanning.Bytes
import ScriptLang.Proofs.Scanning.Reading
import ScriptLang.Proofs.Scanning.Tiling
import ScriptLang.Proofs.Scoping.Site
import ScriptLang.Proofs.Scoping.Fits
import ScriptLang.Proofs.Scoping.Parsed
import ScriptLang.Proofs.Scoping.Lawful
import ScriptLang.Proofs.Scoping.Rename
import ScriptLang.Proofs.Scoping.Moved
import ScriptLang.Proofs.Running.World
import ScriptLang.Proofs.Running.Keeps
import ScriptLang.Proofs.Running.Preservation
import ScriptLang.Proofs.Running.Visits
import ScriptLang.Proofs.Running.Faults
import ScriptLang.Proofs.Running.Confined
import ScriptLang.Proofs.Running.Scene
import ScriptLang.Proofs.Running.Tells
import ScriptLang.Proofs.Running.Telling
import ScriptLang.Proofs.Running.Guise
import ScriptLang.Proofs.Running.Likeness
import ScriptLang.Proofs.Running.Agree
import ScriptLang.Proofs.Running.Simulation
import ScriptLang.Proofs.Running.Still
import ScriptLang.Proofs.Running.Lines
import ScriptLang.Proofs.Sessions.Reached
import ScriptLang.Proofs.Sessions.Mirror
import ScriptLang.Proofs.Sessions.Undefined
import ScriptLang.Proofs.Sessions.Past
import ScriptLang.Proofs.Sessions.Control
import ScriptLang.Proofs.Sessions.Receivers
import ScriptLang.Proofs.Sessions.Renaming
import ScriptLang.Proofs.Sessions.Chunks
import ScriptLang.Proofs.Sessions.Gate
import ScriptLang.Proofs.Parsing.Layout
import ScriptLang.Proofs.Sessions.Layout
import ScriptLang.Proofs.Running.Footprint
import ScriptLang.Proofs.Scoping.Copies
import ScriptLang.Proofs.Sessions.SingleValued
import ScriptLang.Proofs.Scoping.Lowering
import ScriptLang.Proofs.Scoping.Shifted
import ScriptLang.Proofs.Running.Bridge
import ScriptLang.Proofs.Running.Meets
import ScriptLang.Proofs.Running.Crossing
import ScriptLang.Proofs.Sessions.Lowering
import ScriptLang.Proofs.Scoping.Loci
import ScriptLang.Proofs.Scoping.Addresses
import ScriptLang.Proofs.Scoping.Violations
import ScriptLang.Proofs.Scoping.Anchors
import ScriptLang.Proofs.Scanning.Quoting
import ScriptLang.Proofs.Sessions.Quoting
import ScriptLang.Proofs.Running.Cut
import ScriptLang.Proofs.Sessions.Limits
import ScriptLang.Proofs.Scanning.Pairing
import ScriptLang.Proofs.Parsing.Strings
import ScriptLang.Proofs.Running.Made
import ScriptLang.Proofs.Running.Making
import ScriptLang.Proofs.Sessions.Strings
import ScriptLang.Proofs.Sessions.Construction
import ScriptLang.Proofs.Parsing.Arity
import ScriptLang.Proofs.Parsing.Sugar
import ScriptLang.Proofs.Scanning.Lines
import ScriptLang.Proofs.Scanning.Respacing
import ScriptLang.Proofs.Running.Slots
import ScriptLang.Proofs.Numbers.ReadBack
import ScriptLang.Proofs.Numbers.Texts
import ScriptLang.Proofs.Parsing.Forms
import ScriptLang.Proofs.Parsing.ReadingBack
import ScriptLang.Proofs.Running.Order
import ScriptLang.Proofs.Running.Creation
import ScriptLang.Proofs.Running.Carrying
import ScriptLang.Proofs.Sessions.Lookup
import ScriptLang.Proofs.Parsing.Accepting
import ScriptLang.Proofs.Parsing.LongLists
import ScriptLang.Proofs.Parsing.LongPrograms
import ScriptLang.Proofs.Parsing.Shape
import ScriptLang.Proofs.Scoping.Walk
import ScriptLang.Proofs.Parsing.Building
import ScriptLang.Proofs.Parsing.Trail
import ScriptLang.Proofs.Running.Moments
import ScriptLang.Proofs.Running.Chains
import ScriptLang.Proofs.Sessions.Chains
