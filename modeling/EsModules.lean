import EsModules.CommandLine.Run
import EsModules.Declaration.Clause
import EsModules.Main
import EsModules.Module.CommonJs
import EsModules.Module.ExportNames
import EsModules.Module.Importable
import EsModules.Module.Rewriting
import EsModules.Module.Sanitized
import EsModules.Module.StarTasks
import EsModules.Package.Subpath
import EsModules.Proofs.Token.Run
import EsModules.Proofs.Token.Tiling
import EsModules.Proofs.Declaration.Place
import EsModules.Proofs.Module.StarExports
import EsModules.Proofs.Url.Escapes
import EsModules.Proofs.Url.Path
import EsModules.Proofs.Url.PlainFile
import EsModules.Proofs.FileTree.RealPath
import EsModules.Proofs.Url.FilePath
import EsModules.Proofs.Resolution.Canonical
import EsModules.Proofs.Package.Containment
import EsModules.Proofs.Module.Rewriting
import EsModules.Proofs.Declaration.PatchedShapes
import EsModules.Proofs.Declaration.PatchedParts
import EsModules.Proofs.Package.Evaluation
import EsModules.Proofs.Url.Below
import EsModules.Proofs.Package.Installed
import EsModules.Proofs.Package.Published
import EsModules.Proofs.Declaration.PatchedRecords
import EsModules.Proofs.Declaration.ClauseLayout
import EsModules.Proofs.Module.Rewritten
import EsModules.Proofs.Module.Divided
import EsModules.Proofs.Module.StarTasks
import EsModules.Proofs.Token.Joined
import EsModules.Proofs.Declaration.Written
import EsModules.Proofs.Pattern.Forward
import EsModules.Proofs.Declaration.WrittenClause
import EsModules.Proofs.Declaration.WrittenShape
import EsModules.Proofs.Declaration.WrittenTokens
import EsModules.Proofs.Declaration.WrittenImports
import EsModules.Proofs.Url.Behind
import EsModules.Proofs.FileTree.Site
import EsModules.Proofs.Token.Gaps
import EsModules.Proofs.Token.Reserved
import EsModules.Proofs.Token.Slices
import EsModules.Proofs.Token.Endings
import EsModules.Proofs.Token.Fillers
import EsModules.Proofs.Declaration.Openings
import EsModules.Proofs.Declaration.ListNames
import EsModules.Proofs.Declaration.ListedExports
import EsModules.Proofs.Pattern.Steady
import EsModules.Proofs.Declaration.Faithful
import EsModules.Proofs.Module.StrippedComments
import EsModules.Proofs.FileTree.SiteUrl
import EsModules.Proofs.Resolution.Parallel
import EsModules.Proofs.Package.SideBySide
import EsModules.Proofs.Resolution.ProjectPackages
import EsModules.Proofs.Declaration.ListedNames
import EsModules.Proofs.Declaration.ExportLines
import EsModules.Proofs.Declaration.ListComments
import EsModules.Proofs.Declaration.Declarators
import EsModules.Proofs.Declaration.FurtherDeclarators
import EsModules.Proofs.Declaration.DeclarationLines
import EsModules.Proofs.Token.Nesting
import EsModules.Proofs.Token.Delimiters
import EsModules.Proofs.Declaration.DefaultExports
import EsModules.Proofs.Declaration.Calls
import EsModules.Proofs.Declaration.Consistent
import EsModules.Proofs.Declaration.Duplicates
import EsModules.Proofs.Package.FoundAgain
import EsModules.Proofs.Resolution.MovedProjects
import EsModules.Proofs.FileTree.AbsolutePath
import EsModules.Proofs.Module.Ids
import EsModules.Proofs.Token.Progress
import EsModules.Proofs.Package.Parts
import EsModules.Proofs.Module.Importable
import EsModules.Proofs.Pattern.Greedy
import EsModules.Proofs.Declaration.ValuesAndTypes
import EsModules.Proofs.Module.SanitizedPaths
import EsModules.Proofs.Url.Origins
import EsModules.Proofs.Module.NormalizedIds
import EsModules.Proofs.Package.Spelling
