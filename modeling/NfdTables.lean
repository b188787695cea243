import NfdTables.NameTree.EntryParts
import NfdTables.NameTree.Redistribute
import NfdTables.NameTree.BucketCount
import NfdTables.NameTree.LookupErase
import NfdTables.NameTree.PartialEnumerate
import NfdTables.NameTree.Refinement
import NfdTables.NameTree.Lifetime
import NfdTables.NameTree.EnumerationRuns
import NfdTables.NameTree.MatchRuns
import NfdTables.NameTree.PartialRuns
import NfdTables.NameTree.Tidy
import NfdTables.NameTree.Dump
import NfdTables.Pit.DataMatches
import NfdTables.Pit.EndToEnd
import NfdTables.Pit.Prune
import NfdTables.Pit.Unlisted
import NfdTables.Pit.Sharing
import NfdTables.City.Contents
