import Atmark.Cache.Watched
import Atmark.Command.Run
import Atmark.Files.Archive
import Atmark.Files.Handle
import Atmark.Main
import Atmark.Page.View
import Atmark.Proofs.Code.Outline
import Atmark.Proofs.Directive.Markup
import Atmark.Proofs.Directive.Separation
import Atmark.Proofs.Parse.Lockstep
import Atmark.Token.Place
import Atmark.Proofs.Directive.Lockstep
import Atmark.Proofs.Code.Bare
import Atmark.Proofs.Cache.Meaning
import Atmark.Proofs.Cache.Again
import Atmark.Proofs.Cache.Coherent
import Atmark.Proofs.Cache.Session
import Atmark.Proofs.Parse.Cycle
import Atmark.Proofs.Parse.Declared
import Atmark.Proofs.Parse.Located
import Atmark.Proofs.Path.Walk
import Atmark.Proofs.Parse.Budget
import Atmark.Proofs.Site.Order
import Atmark.Proofs.Site.Templates
import Atmark.Proofs.Token.Extent
import Atmark.Proofs.Token.Balanced
import Atmark.Proofs.Cache.Interleaving
import Atmark.Proofs.Code.Static
import Atmark.Proofs.Directive.Dropped
import Atmark.Proofs.Directive.Deferred
import Atmark.Proofs.Code.Normal
import Atmark.Proofs.Parse.Copied
import Atmark.Proofs.Parse.WrittenTag
import Atmark.Proofs.Directive.Model
import Atmark.Proofs.Directive.Moves
import Atmark.Proofs.Parse.RawText
import Atmark.Proofs.Parse.Plain
import Atmark.Proofs.Parse.RawContent
import Atmark.Proofs.Token.Apostrophe
import Atmark.Proofs.Parse.Requoted
import Atmark.Proofs.Directive.Line
import Atmark.Proofs.Directive.Header
import Atmark.Proofs.View.Sections
import Atmark.Proofs.Parse.Broken
import Atmark.Proofs.Parse.Congruence
import Atmark.Proofs.Directive.Congruence
import Atmark.Proofs.Parse.Answers
import Atmark.Proofs.Code.Quotes
import Atmark.Proofs.Code.Grounded
import Atmark.Proofs.Text.Margin
import Atmark.Proofs.View.Signature
import Atmark.Proofs.Page.Render
import Atmark.Proofs.Site.Writing
import Atmark.Proofs.Parse.Postponed
import Atmark.Proofs.Cache.Steady
import Atmark.Proofs.Code.Steady
import Atmark.Proofs.Site.Steady
import Atmark.Proofs.Command.Generate
import Atmark.Proofs.View.Name
