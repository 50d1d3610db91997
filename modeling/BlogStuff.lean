import BlogStuff.VlessSubs.Refinement
import BlogStuff.VlessSubs.Subscription
import BlogStuff.VlessSubs.Output
import BlogStuff.VlessSubs.ClashNames
import BlogStuff.VlessSubs.DisplayNames
import BlogStuff.VlessSubs.ProxyYaml
import BlogStuff.VlessSubs.GroupNames
import BlogStuff.VlessSubs.Stored
import BlogStuff.VlessSubs.Groups
import BlogStuff.VlessSubs.SsForms
import BlogStuff.VlessSubs.Rename
import BlogStuff.Setup.NodeUrl
import BlogStuff.Setup.Caddyfile
import BlogStuff.Adepends.GnuMake
import BlogStuff.Adepends.Depends
import BlogStuff.Adepends.ScanOrder
import BlogStuff.Adepends.Dot
import BlogStuff.Adepends.SrcFiles
import BlogStuff.Adepends.Swallowed
import BlogStuff.Adepends.Substitution
import BlogStuff.Adepends.PathWords
import BlogStuff.Adepends.Termination
import BlogStuff.Algorithm.TwoArrays
import BlogStuff.Algorithm.LeastRound
import BlogStuff.Algorithm.GridPath
import BlogStuff.Algorithm.Selection
import BlogStuff.Algorithm.FiveSmooth
import BlogStuff.Algorithm.CellNames
import BlogStuff.Algorithm.Palindrome
import BlogStuff.Algorithm.MergedMedian
import BlogStuff.Algorithm.IncreasingTable
import BlogStuff.Algorithm.Berlogging
import BlogStuff.Algorithm.MatchMaker
import BlogStuff.Algorithm.DigitLists
import BlogStuff.Algorithm.DistinctRun
import BlogStuff.Bcscope.Recursive
import BlogStuff.Adb.Bounds
import BlogStuff.Adb.SmartSocket
import BlogStuff.VlessSubs.Fleet
