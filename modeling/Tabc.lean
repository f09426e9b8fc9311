import Tabc.Scope.Script
import Tabc.Generator.Trial
import Tabc.Generator.Scanner
import Tabc.Shell.Run
import Tabc.Main
import Tabc.Proofs.Core.Simulation
import Tabc.Proofs.Rebuild.Structure
import Tabc.Proofs.Writing.Mentions
import Tabc.Proofs.Writing.Renamed
import Tabc.Proofs.Parsing.Printing
import Tabc.Proofs.Nesting.Indentation
import Tabc.Proofs.Nesting.Visits
import Tabc.Proofs.Typing.Agreement
import Tabc.Proofs.Typing.Renaming
import Tabc.Proofs.Declaration.Order
import Tabc.Proofs.Sessions.History
import Tabc.Proofs.Sessions.Lists
import Tabc.Proofs.Sessions.Placing
import Tabc.Proofs.Strings.Output
import Tabc.Proofs.Editions.Failures
import Tabc.Proofs.Editions.Registers
import Tabc.Proofs.Jumps.Placement
import Tabc.Proofs.Jumps.Splicing
import Tabc.Proofs.Rebuild.Functions
import Tabc.Proofs.Writing.Chains
import Tabc.Proofs.Writing.Ranges
import Tabc.Proofs.Rebuild.Positions
import Tabc.Proofs.Typing.Printed
import Tabc.Proofs.Scanning.Lexemes
import Tabc.Proofs.Typing.Emitted
